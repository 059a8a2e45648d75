import StencilGraph.Support.Base64

namespace StencilGraph.Support.Base64
open Base64OutStream

/-- The encoding of a whole string. -/
def encode : List UInt8 → List UInt8
  | [] => []
  | [a] => group1 a
  | [a, b] => group2 a b
  | a :: b :: c :: rest => group3 a b c ++ encode rest

/-- Whole groups are encoded one by one. -/
theorem encode_append (x y : List UInt8) (hx : 3 ∣ x.length) :
    encode (x ++ y) = encode x ++ encode y := by
  match x, hx with
  | [], _ => rfl
  | a :: b :: c :: rest, hx =>
    have hrest : 3 ∣ rest.length := by
      simp only [List.length_cons] at hx
      omega
    rw [List.cons_append, List.cons_append, List.cons_append, encode, encode,
      encode_append rest y hrest, List.append_assoc]
  | [_], hx => simp at hx
  | [_, _], hx => simp at hx

namespace Base64OutStream

variable {s : Base64OutStream}

/-- Everything put out so far. -/
def text (s : Base64OutStream) : List UInt8 := s.fp ++ s.outBuf

theorem flush_text (s : Base64OutStream) : s.flush.text = s.text ∧ s.flush.buf = s.buf ∧
    s.flush.outBuf = [] := by
  unfold flush
  split_ifs with h
  · exact ⟨by simp [text], rfl, rfl⟩
  · exact ⟨rfl, rfl, List.eq_nil_of_length_eq_zero (not_not.mp h)⟩

theorem putChar_text (s : Base64OutStream) (ch : UInt8) :
    (s.putChar ch).text = s.text ++ [ch] ∧ (s.putChar ch).buf = s.buf := by
  have hpush : text { s with outBuf := s.outBuf ++ [ch] } = s.text ++ [ch] := by simp [text]
  unfold putChar
  simp only
  split_ifs with h
  · obtain ⟨htext, hbuf, -⟩ := flush_text { s with outBuf := s.outBuf ++ [ch] }
    exact ⟨htext.trans hpush, hbuf⟩
  · exact ⟨hpush, rfl⟩

theorem putChars_text (s : Base64OutStream) (chars : List UInt8) :
    (s.putChars chars).text = s.text ++ chars ∧ (s.putChars chars).buf = s.buf := by
  induction chars generalizing s with
  | nil => exact ⟨(List.append_nil _).symm, rfl⟩
  | cons ch chars ih =>
    obtain ⟨htext, hbuf⟩ := putChar_text s ch
    obtain ⟨htext', hbuf'⟩ := ih (s.putChar ch)
    constructor
    · rw [putChars, List.foldl_cons]
      exact htext'.trans (by rw [htext]; simp)
    · exact hbuf'.trans hbuf

/-- The stream has put out the whole groups of `x` behind `before` and keeps the rest of `x`. -/
structure Encodes (s : Base64OutStream) (before x : List UInt8) : Prop where
  done : ∃ front, x = front ++ s.buf ∧ 3 ∣ front.length ∧ s.text = before ++ encode front
  short : s.buf.length < 3

theorem Encodes.writeByte {before x : List UInt8} (h : s.Encodes before x) (byte : UInt8) :
    (s.writeByte byte).Encodes before (x ++ [byte]) := by
  obtain ⟨front, hx, hfront, htext⟩ := h.done
  have hshort := h.short
  unfold Base64OutStream.writeByte
  match hbuf : s.buf with
  | [] =>
    exact ⟨⟨front, by simp [hx, hbuf], hfront, htext⟩, by simp⟩
  | [a] =>
    exact ⟨⟨front, by simp [hx, hbuf], hfront, htext⟩, by simp⟩
  | [a, b] =>
    obtain ⟨hput, hempty⟩ := putChars_text { s with buf := [] } (group3 a b byte)
    have hencode : encode [a, b, byte] = group3 a b byte := by simp [encode]
    refine ⟨⟨front ++ [a, b, byte], ?_, ?_, ?_⟩, ?_⟩
    · show x ++ [byte] = front ++ [a, b, byte] ++ (putChars { s with buf := [] } _).buf
      rw [hempty, hx, hbuf]
      simp
    · rw [List.length_append]
      exact Nat.dvd_add hfront (Nat.dvd_refl 3)
    · show (putChars { s with buf := [] } _).text = _
      rw [hput, encode_append _ _ hfront, hencode, ← List.append_assoc, ← htext]
      rfl
    · show (putChars { s with buf := [] } _).buf.length < 3
      rw [hempty]
      exact Nat.zero_lt_succ 2
  | _ :: _ :: _ :: _ =>
    rw [hbuf] at hshort
    simp only [List.length_cons] at hshort
    omega

theorem Encodes.write {before x : List UInt8} (h : s.Encodes before x) (data : List UInt8) :
    (s.write data).Encodes before (x ++ data) := by
  induction data generalizing s x with
  | nil => simpa [Base64OutStream.write] using h
  | cons byte data ih => simpa [Base64OutStream.write] using ih (h.writeByte byte)

theorem Encodes.writes {before x : List UInt8} (h : s.Encodes before x)
    (chunks : List (List UInt8)) :
    (chunks.foldl Base64OutStream.write s).Encodes before (x ++ chunks.flatten) := by
  induction chunks generalizing s x with
  | nil => simpa using h
  | cons data chunks ih => simpa using ih (h.write data)

/-- `Finish` completes the string and passes everything on. -/
theorem Encodes.finish {before x : List UInt8} (h : s.Encodes before x) (endch : Option UInt8) :
    (s.finish endch).fp = before ++ encode x ++ endch.toList ∧
      (s.finish endch).Encodes (s.finish endch).fp [] := by
  obtain ⟨front, hx, hfront, htext⟩ := h.done
  have hshort := h.short
  -- the padded last group, if there is one
  obtain ⟨t, ht, hfinish⟩ : ∃ t : Base64OutStream, t.text = before ++ encode x ∧
      s.finish endch = (putChars { t with buf := [] } endch.toList).flush := by
    unfold Base64OutStream.finish
    match hbuf : s.buf with
    | [] =>
      refine ⟨s, ?_, rfl⟩
      rw [htext, hx, hbuf, List.append_nil]
    | [a] =>
      refine ⟨s.putChars (group1 a), ?_, rfl⟩
      rw [(putChars_text s _).1, htext, hx, hbuf, encode_append _ _ hfront, List.append_assoc]
      rfl
    | [a, b] =>
      refine ⟨s.putChars (group2 a b), ?_, rfl⟩
      rw [(putChars_text s _).1, htext, hx, hbuf, encode_append _ _ hfront, List.append_assoc]
      rfl
    | _ :: _ :: _ :: _ =>
      rw [hbuf] at hshort
      simp only [List.length_cons] at hshort
      omega
  obtain ⟨hput, hbuf⟩ := putChars_text { t with buf := [] } endch.toList
  obtain ⟨hflush, hbuf', hout⟩ := flush_text (putChars { t with buf := [] } endch.toList)
  rw [hfinish]
  have hfp : (putChars { t with buf := [] } endch.toList).flush.text =
      (putChars { t with buf := [] } endch.toList).flush.fp := by
    rw [text, hout, List.append_nil]
  have hbuf'' : (putChars { t with buf := [] } endch.toList).flush.buf = [] := hbuf'.trans hbuf
  constructor
  · rw [← hfp, hflush, hput, ← ht]
    rfl
  · refine ⟨⟨[], ?_, ?_, ?_⟩, ?_⟩
    · rw [hbuf'']
      rfl
    · exact Nat.dvd_zero 3
    · rw [hfp]
      simp [encode]
    · rw [hbuf'']
      decide

end Base64OutStream

theorem encodeChar_spec {v : Nat} (hv : v < 64) :
    decodeTable[(encodeChar v).toNat]? = some v ∧ isSpace (encodeChar v) = false ∧
      encodeChar v ≠ pad := by
  have hall : ∀ v : Fin 64, decodeTable[(encodeChar v).toNat]? = some v.val ∧
      isSpace (encodeChar v) = false ∧ encodeChar v ≠ pad := by decide
  exact hall ⟨v, hv⟩

/-- The six-bit values of a group, without the bit operations. -/
theorem sextets (a b c : UInt8) :
    a.toNat >>> 2 = a.toNat / 4 ∧
    (a.toNat <<< 4 ||| b.toNat >>> 4) &&& 0x3F = a.toNat % 4 * 16 + b.toNat / 16 ∧
    (b.toNat <<< 2 ||| c.toNat >>> 6) &&& 0x3F = b.toNat % 16 * 4 + c.toNat / 64 ∧
    c.toNat &&& 0x3F = c.toNat % 64 := by
  have ha := a.toNat_lt
  have hb := b.toNat_lt
  have hc := c.toNat_lt
  have hmask (n : Nat) : n &&& 0x3F = n % 64 := Nat.and_two_pow_sub_one_eq_mod n 6
  rw [hmask, hmask, hmask, ← Nat.shiftLeft_add_eq_or_of_lt (by rw [Nat.shiftRight_eq_div_pow]; omega),
    ← Nat.shiftLeft_add_eq_or_of_lt (by rw [Nat.shiftRight_eq_div_pow]; omega)]
  have hfirst : a.toNat * 2 ^ 4 + b.toNat / 2 ^ 4 =
      64 * (a.toNat / 4) + (a.toNat % 4 * 16 + b.toNat / 16) := by omega
  have hsecond : b.toNat * 2 ^ 2 + c.toNat / 2 ^ 6 =
      64 * (b.toNat / 16) + (b.toNat % 16 * 4 + c.toNat / 64) := by omega
  simp only [Nat.shiftRight_eq_div_pow, Nat.shiftLeft_eq]
  rw [hfirst, hsecond, Nat.mul_add_mod, Nat.mul_add_mod]
  exact ⟨trivial, Nat.mod_eq_of_lt (by omega), Nat.mod_eq_of_lt (by omega), trivial⟩

theorem sextets_last (a : UInt8) : (a.toNat <<< 4) &&& 0x3F = a.toNat % 4 * 16 ∧
    (a.toNat <<< 2) &&& 0x3F = a.toNat % 16 * 4 := by
  have hmask (n : Nat) : n &&& 0x3F = n % 64 := Nat.and_two_pow_sub_one_eq_mod n 6
  rw [hmask, hmask]
  simp only [Nat.shiftLeft_eq]
  omega

/-- The bytes that `Read` takes out of the growing value of a group. -/
theorem octets {v₀ v₁ v₂ v₃ : Nat} (h₁ : v₁ < 64) (h₂ : v₂ < 64) (h₃ : v₃ < 64) :
    ((v₀ <<< 18 ||| v₁ <<< 12) >>> 16) &&& 0xFF = (v₀ * 4 + v₁ / 16) % 256 ∧
    ((v₀ <<< 18 ||| v₁ <<< 12 ||| v₂ <<< 6) >>> 8) &&& 0xFF = (v₁ % 16 * 16 + v₂ / 4) % 256 ∧
    (v₀ <<< 18 ||| v₁ <<< 12 ||| v₂ <<< 6 ||| v₃) &&& 0xFF = (v₂ % 4 * 64 + v₃) % 256 := by
  have hmask (n : Nat) : n &&& 0xFF = n % 256 := Nat.and_two_pow_sub_one_eq_mod n 8
  have hone : v₀ <<< 18 ||| v₁ <<< 12 = (v₀ * 64 + v₁) <<< 12 := by
    rw [← Nat.shiftLeft_add_eq_or_of_lt (by rw [Nat.shiftLeft_eq]; omega)]
    simp only [Nat.shiftLeft_eq]
    omega
  have htwo : (v₀ * 64 + v₁) <<< 12 ||| v₂ <<< 6 = ((v₀ * 64 + v₁) * 64 + v₂) <<< 6 := by
    rw [← Nat.shiftLeft_add_eq_or_of_lt (by rw [Nat.shiftLeft_eq]; omega)]
    simp only [Nat.shiftLeft_eq]
    omega
  have hthree : ((v₀ * 64 + v₁) * 64 + v₂) <<< 6 ||| v₃ =
      ((v₀ * 64 + v₁) * 64 + v₂) <<< 6 + v₃ := by
    rw [Nat.shiftLeft_add_eq_or_of_lt (by omega)]
  rw [hone, htwo, hthree, hmask, hmask, hmask]
  simp only [Nat.shiftLeft_eq, Nat.shiftRight_eq_div_pow]
  omega

namespace Base64InStream

variable {s : Base64InStream} {txt prev : List UInt8}

/-- What the reader still delivers. -/
def readerText (r : StreamBufferReader) : List UInt8 := r.buffer ++ r.pieces.flatten

theorem getChar_spec {r : StreamBufferReader} (hr : [] ∉ r.pieces) :
    r.getChar.1 = (readerText r).head? ∧ readerText r.getChar.2 = (readerText r).tail ∧
      [] ∉ r.getChar.2.pieces := by
  obtain ⟨buffer, pieces⟩ := r
  cases buffer with
  | cons c buffer => exact ⟨rfl, rfl, hr⟩
  | nil =>
    cases pieces with
    | nil => exact ⟨rfl, rfl, hr⟩
    | cons piece pieces =>
      cases piece with
      | nil => exact absurd List.mem_cons_self hr
      | cons c buffer => exact ⟨rfl, rfl, fun h => hr (List.mem_cons_of_mem _ h)⟩

/-- The stream stands at the first character of `txt`, with the decoded bytes `prev` in hand. -/
structure Holds (s : Base64InStream) (txt prev : List UInt8) : Prop where
  tempCh : s.tempCh = txt.head?
  reader : readerText s.reader = txt.tail
  pieces : [] ∉ s.reader.pieces
  prev : s.prev = prev

theorem nextChar_holds {rest : List UInt8} (hreader : readerText s.reader = rest)
    (hpieces : [] ∉ s.reader.pieces) (hprev : s.prev = prev) : s.nextChar.Holds rest prev := by
  obtain ⟨hchar, htail, hne⟩ := getChar_spec hpieces
  rw [hreader] at hchar htail
  exact ⟨hchar, htail, hne, hprev⟩

theorem Holds.next {c : UInt8} (h : s.Holds (c :: txt) prev) : s.nextChar.Holds txt prev :=
  nextChar_holds h.reader h.pieces h.prev

theorem Holds.push {byte : UInt8} (h : s.Holds txt prev) :
    Holds { s with prev := s.prev ++ [byte] } txt (prev ++ [byte]) :=
  ⟨h.tempCh, h.reader, h.pieces, by rw [h.prev]⟩

/-- The text of the string ends here. -/
def Ends (txt : List UInt8) : Prop := txt.head?.all isSpace = true

theorem Holds.atSpace (h : s.Holds txt prev) (htxt : Ends txt) : s.atSpace = true := by
  rw [Base64InStream.atSpace, h.tempCh]
  exact htxt

theorem Holds.not_atSpace {c : UInt8} (h : s.Holds (c :: txt) prev) (hc : isSpace c = false) :
    s.atSpace = false := by
  rw [Base64InStream.atSpace, h.tempCh]
  simp [hc]

theorem Holds.checkedChar {c : UInt8} (h : s.Holds (c :: txt) prev) (hc : isSpace c = false) :
    s.checkedChar = some c := by
  rw [Base64InStream.checkedChar, h.tempCh]
  simp [hc]

/-- A delivered byte, to the caller or to `buf_prev`. -/
theorem Holds.deliver (h : s.Holds txt prev) (byte : UInt8) (tlen : Nat) :
    ∃ s', s.deliver tlen byte = ([byte].take tlen, tlen - 1, s') ∧
      s'.Holds txt (prev ++ [byte].drop tlen) := by
  unfold Base64InStream.deliver
  cases tlen with
  | zero => exact ⟨_, rfl, h.push⟩
  | succ tlen =>
    refine ⟨s, ?_, ?_⟩
    · rw [if_pos (Nat.succ_ne_zero _)]
      simp
    · simpa using h

/-- The three characters before the last, decoded: the first byte and the value for the second. -/
theorem first_byte (a b : UInt8) {v : Nat}
    (hv : v = (a.toNat <<< 4 ||| b.toNat >>> 4) &&& 0x3F ∨ v = (a.toNat <<< 4) &&& 0x3F) :
    v < 64 ∧ UInt8.ofNat (((a.toNat >>> 2) <<< 18 ||| v <<< 12) >>> 16 &&& 0xFF) = a := by
  have ha := a.toNat_lt
  have hb := b.toNat_lt
  obtain ⟨h₀, h₁, -, -⟩ := sextets a b 0
  have hlast := (sextets_last a).1
  rw [h₁, hlast] at hv
  have hlt : v < 64 := by omega
  refine ⟨hlt, ?_⟩
  have hdiv : v / 16 = a.toNat % 4 := by omega
  rw [(octets hlt (by decide : 0 < 64) (by decide : 0 < 64)).1, h₀, hdiv]
  have hsum : (a.toNat / 4 * 4 + a.toNat % 4) % 256 = a.toNat := by omega
  rw [hsum, UInt8.ofNat_toNat]

theorem readGroup_group1 {a : UInt8} {tlen : Nat} (h : s.Holds (group1 a ++ txt) prev)
    (htlen : 0 < tlen) (htxt : Ends txt) :
    ∃ s', s.readGroup tlen = some ([a].take tlen, tlen - 1, s', true) ∧
      s'.Holds txt (prev ++ [a].drop tlen) := by
  obtain ⟨hlt, hbyte⟩ := first_byte a 0 (Or.inr rfl)
  have ha := a.toNat_lt
  obtain ⟨hdec₀, hsp₀, -⟩ := encodeChar_spec (v := a.toNat >>> 2)
    (by rw [(sextets a 0 0).1]; omega)
  obtain ⟨hdec₁, hsp₁, -⟩ := encodeChar_spec hlt
  have h₁ := h.next
  have h₂ := h₁.next
  have h₃ := h₂.next
  have h₄ := h₃.next
  have hpad : isSpace pad = false := by decide
  refine ⟨s.nextChar.nextChar.nextChar.nextChar, ?_, ?_⟩
  · unfold readGroup
    simp only [h.tempCh, h₁.checkedChar hsp₁, h₂.checkedChar hpad, decodeChar, hdec₁, group1,
      List.cons_append, List.head?_cons, hdec₀, Option.bind_eq_bind, Option.bind_some, hbyte]
    rw [if_pos trivial, if_neg (by rw [h₃.tempCh]; simp), h₄.atSpace htxt]
    cases tlen with
    | zero => omega
    | succ tlen => simp
  · cases tlen with
    | zero => omega
    | succ tlen => simpa using h₄

/-- The second byte of a group. -/
theorem second_byte (a b c : UInt8) {v : Nat}
    (hv : v = (b.toNat <<< 2 ||| c.toNat >>> 6) &&& 0x3F ∨ v = (b.toNat <<< 2) &&& 0x3F) :
    v < 64 ∧ UInt8.ofNat (((a.toNat >>> 2) <<< 18 |||
      ((a.toNat <<< 4 ||| b.toNat >>> 4) &&& 0x3F) <<< 12 ||| v <<< 6) >>> 8 &&& 0xFF) = b := by
  have hb := b.toNat_lt
  have hc := c.toNat_lt
  obtain ⟨-, h₁, h₂, -⟩ := sextets a b c
  have hlast := (sextets_last b).2
  rw [h₂, hlast] at hv
  have hlt : v < 64 := by omega
  refine ⟨hlt, ?_⟩
  have hdiv : v / 4 = b.toNat % 16 := by omega
  have hmod : (a.toNat % 4 * 16 + b.toNat / 16) % 16 = b.toNat / 16 := by omega
  rw [h₁, (octets (by omega) hlt (by decide : 0 < 64)).2.1, hdiv, hmod]
  have hsum : (b.toNat / 16 * 16 + b.toNat % 16) % 256 = b.toNat := by omega
  rw [hsum, UInt8.ofNat_toNat]

/-- The third byte of a group. -/
theorem third_byte (a b c : UInt8) :
    c.toNat &&& 0x3F < 64 ∧ UInt8.ofNat (((a.toNat >>> 2) <<< 18 |||
      ((a.toNat <<< 4 ||| b.toNat >>> 4) &&& 0x3F) <<< 12 |||
      ((b.toNat <<< 2 ||| c.toNat >>> 6) &&& 0x3F) <<< 6 ||| c.toNat &&& 0x3F) &&& 0xFF) = c := by
  have hb := b.toNat_lt
  have hc := c.toNat_lt
  obtain ⟨-, h₁, h₂, h₃⟩ := sextets a b c
  have hmod : (b.toNat % 16 * 4 + c.toNat / 64) % 4 = c.toNat / 64 := by omega
  rw [h₁, h₂, h₃, (octets (by omega) (by omega) (by omega)).2.2, hmod]
  have hsum : (c.toNat / 64 * 64 + c.toNat % 64) % 256 = c.toNat := by omega
  rw [hsum, UInt8.ofNat_toNat]
  exact ⟨by omega, rfl⟩

theorem readGroup_group2 {a b : UInt8} {tlen : Nat} (h : s.Holds (group2 a b ++ txt) prev)
    (htlen : 0 < tlen) (htxt : Ends txt) :
    ∃ s', s.readGroup tlen = some ([a, b].take tlen, tlen - 2, s', true) ∧
      s'.Holds txt (prev ++ [a, b].drop tlen) := by
  obtain ⟨hlt₁, hbyte₁⟩ := first_byte a b (Or.inl rfl)
  obtain ⟨hlt₂, hbyte₂⟩ := second_byte a b 0 (Or.inr rfl)
  have ha := a.toNat_lt
  obtain ⟨hdec₀, -, -⟩ := encodeChar_spec (v := a.toNat >>> 2) (by rw [(sextets a 0 0).1]; omega)
  obtain ⟨hdec₁, hsp₁, -⟩ := encodeChar_spec hlt₁
  obtain ⟨hdec₂, hsp₂, hne₂⟩ := encodeChar_spec hlt₂
  have h₁ := h.next
  have h₂ := h₁.next
  obtain ⟨s₂, hdeliver, h₂'⟩ := h₂.deliver b (tlen - 1)
  have h₃ := h₂'.next
  have h₄ := h₃.next
  have hpad : isSpace pad = false := by decide
  refine ⟨s₂.nextChar.nextChar, ?_, ?_⟩
  · unfold readGroup
    simp only [h.tempCh, h₁.checkedChar hsp₁, h₂.checkedChar hsp₂, decodeChar, hdec₁, group2,
      List.cons_append, List.head?_cons, hdec₀, Option.bind_eq_bind, Option.bind_some, hbyte₁,
      hdec₂, hbyte₂, hdeliver, h₃.checkedChar hpad]
    rw [if_neg hne₂, if_pos trivial, h₄.atSpace htxt]
    cases tlen with
    | zero => omega
    | succ tlen => simp
  · cases tlen with
    | zero => omega
    | succ tlen => simpa using h₄

theorem readGroup_group3 {a b c : UInt8} {tlen : Nat} (h : s.Holds (group3 a b c ++ txt) prev)
    (htlen : 0 < tlen) :
    ∃ s', s.readGroup tlen = some ([a, b, c].take tlen, tlen - 3, s', false) ∧
      s'.Holds txt (prev ++ [a, b, c].drop tlen) := by
  obtain ⟨hlt₁, hbyte₁⟩ := first_byte a b (Or.inl rfl)
  obtain ⟨hlt₂, hbyte₂⟩ := second_byte a b c (Or.inl rfl)
  obtain ⟨hlt₃, hbyte₃⟩ := third_byte a b c
  have ha := a.toNat_lt
  obtain ⟨hdec₀, -, -⟩ := encodeChar_spec (v := a.toNat >>> 2) (by rw [(sextets a 0 0).1]; omega)
  obtain ⟨hdec₁, hsp₁, -⟩ := encodeChar_spec hlt₁
  obtain ⟨hdec₂, hsp₂, hne₂⟩ := encodeChar_spec hlt₂
  obtain ⟨hdec₃, hsp₃, hne₃⟩ := encodeChar_spec hlt₃
  have h₁ := h.next
  have h₂ := h₁.next
  obtain ⟨s₂, hdeliver₂, h₂'⟩ := h₂.deliver b (tlen - 1)
  have h₃ := h₂'.next
  obtain ⟨s₃, hdeliver₃, h₃'⟩ := h₃.deliver c (tlen - 1 - 1)
  have h₄ := h₃'.next
  refine ⟨s₃.nextChar, ?_, ?_⟩
  · unfold readGroup
    simp only [h.tempCh, h₁.checkedChar hsp₁, h₂.checkedChar hsp₂, decodeChar, hdec₁, group3,
      List.cons_append, List.head?_cons, hdec₀, Option.bind_eq_bind, Option.bind_some, hbyte₁,
      hdec₂, hbyte₂, hdeliver₂, h₃.checkedChar hsp₃, hdec₃, hbyte₃, hdeliver₃]
    rw [if_neg hne₂, if_neg hne₃]
    match tlen, htlen with
    | 1, _ => simp
    | tlen + 2, _ => simp
  · match tlen, htlen with
    | 1, _ => simpa using h₄
    | 2, _ => simpa using h₄
    | tlen + 3, _ => simpa using h₄

/-- The first character of a group is none that ends the text. -/
theorem first_char (a : UInt8) : isSpace (encodeChar (a.toNat >>> 2)) = false := by
  have ha := a.toNat_lt
  exact (encodeChar_spec (by rw [(sextets a 0 0).1]; omega)).2.1

/-- What `Read` has still to deliver of a string: the bytes in hand, then the text before `txt`. -/
structure Remaining (s : Base64InStream) (rest txt : List UInt8) : Prop where
  split : ∃ kept y, rest = kept ++ y ∧ s.Holds (encode y ++ txt) kept ∧ kept.length ≤ 2
  ends : Ends txt

theorem readLoop_zero (fuel : Nat) (s : Base64InStream) : readLoop fuel s 0 = some ([], s) := by
  cases fuel with
  | zero => rfl
  | succ fuel => rw [readLoop, if_pos (Or.inl rfl)]

theorem readLoop_spec (x : List UInt8) (fuel tlen : Nat) (h : s.Holds (encode x ++ txt) [])
    (htxt : Ends txt) (hfuel : tlen ≤ fuel) :
    ∃ s', readLoop fuel s tlen = some (x.take tlen, s') ∧ s'.Remaining (x.drop tlen) txt := by
  induction x using encode.induct generalizing s fuel tlen with
  | case1 =>
    refine ⟨s, ?_, ⟨[], [], by simp, h, by simp⟩, htxt⟩
    cases fuel with
    | zero => simp [readLoop]
    | succ fuel =>
      rw [readLoop, if_pos (Or.inr (h.atSpace htxt))]
      simp
  | case2 a =>
    rcases Nat.eq_zero_or_pos tlen with rfl | hpos
    · exact ⟨s, readLoop_zero fuel s, ⟨[], [a], rfl, h, by simp⟩, htxt⟩
    · obtain ⟨s', hgroup, h'⟩ := readGroup_group1 h hpos htxt
      have hspace : s.atSpace = false := Holds.not_atSpace h (first_char a)
      refine ⟨s', ?_, ⟨[a].drop tlen, [], by simp, h', by rw [List.length_drop]; simp; omega⟩, htxt⟩
      obtain ⟨fuel, rfl⟩ := Nat.exists_eq_succ_of_ne_zero (Nat.ne_of_gt (hpos.trans_le hfuel))
      rw [readLoop, if_neg (by simp [hspace]; omega), hgroup]
      rfl
  | case3 a b =>
    rcases Nat.eq_zero_or_pos tlen with rfl | hpos
    · exact ⟨s, readLoop_zero fuel s, ⟨[], [a, b], rfl, h, by simp⟩, htxt⟩
    · obtain ⟨s', hgroup, h'⟩ := readGroup_group2 h hpos htxt
      have hspace : s.atSpace = false := Holds.not_atSpace h (first_char a)
      refine ⟨s', ?_, ⟨[a, b].drop tlen, [], by simp, h', by simp⟩, htxt⟩
      obtain ⟨fuel, rfl⟩ := Nat.exists_eq_succ_of_ne_zero (Nat.ne_of_gt (hpos.trans_le hfuel))
      rw [readLoop, if_neg (by simp [hspace]; omega), hgroup]
      rfl
  | case4 a b c rest ih =>
    rcases Nat.eq_zero_or_pos tlen with rfl | hpos
    · exact ⟨s, readLoop_zero fuel s, ⟨[], a :: b :: c :: rest, rfl, h, by simp⟩, htxt⟩
    · have h' : s.Holds (group3 a b c ++ (encode rest ++ txt)) [] := by
        rw [encode, List.append_assoc] at h
        exact h
      obtain ⟨s₁, hgroup, h₁⟩ := readGroup_group3 h' hpos
      have hspace : s.atSpace = false := Holds.not_atSpace h' (first_char a)
      obtain ⟨fuel, rfl⟩ := Nat.exists_eq_succ_of_ne_zero (Nat.ne_of_gt (hpos.trans_le hfuel))
      have hloop : readLoop (fuel + 1) s tlen = (readLoop fuel s₁ (tlen - 3)).bind
          fun r => some ([a, b, c].take tlen ++ r.1, r.2) := by
        rw [readLoop, if_neg (by simp [hspace]; omega), hgroup]
        rfl
      by_cases hlong : tlen ≤ 3
      · -- the request ends inside this group
        have hzero : tlen - 3 = 0 := by omega
        refine ⟨s₁, ?_, ⟨[a, b, c].drop tlen, rest, ?_, h₁, ?_⟩, htxt⟩
        · rw [hloop, hzero, readLoop_zero]
          show some ([a, b, c].take tlen ++ [], s₁) = _
          have htake : ([a, b, c] ++ rest).take tlen = [a, b, c].take tlen :=
            List.take_append_of_le_length hlong
          rw [List.append_nil, ← htake]
          rfl
        · show ([a, b, c] ++ rest).drop tlen = _
          exact List.drop_append_of_le_length hlong
        · rw [List.length_drop]
          simp only [List.length_cons, List.length_nil]
          omega
      · obtain ⟨tlen, rfl⟩ : ∃ n, tlen = n + 3 := ⟨tlen - 3, by omega⟩
        have h₁' : s₁.Holds (encode rest ++ txt) [] := by simpa using h₁
        obtain ⟨s', hread, hrem⟩ := ih fuel tlen h₁' (by omega)
        refine ⟨s', ?_, by simpa using hrem⟩
        rw [hloop, Nat.add_sub_cancel, hread]
        simp

/-- `Read` delivers the next bytes of the string. -/
theorem read_spec {rest : List UInt8} (h : s.Remaining rest txt) (size : Nat) :
    ∃ s', s.read size = some (rest.take size, s') ∧ s'.Remaining (rest.drop size) txt := by
  unfold read
  by_cases hzero : size = 0
  · rw [hzero, if_pos rfl]
    exact ⟨s, by simp, by simpa using h⟩
  · rw [if_neg hzero]
    obtain ⟨kept, y, rfl, hholds, hkept⟩ := h.split
    have hprev := hholds.prev
    by_cases hle : size ≤ kept.length
    · -- the bytes in hand are enough
      have hloop : size - (kept.take size).length = 0 := by
        rw [List.length_take]
        omega
      refine ⟨{ s with prev := kept.drop size }, ?_, ⟨kept.drop size, y, ?_, ?_, ?_⟩, h.ends⟩
      · simp only [hprev, hloop, readLoop_zero, Option.bind_eq_bind, Option.bind_some,
          List.append_nil]
        rw [List.take_append_of_le_length hle]
      · rw [List.drop_append_of_le_length hle]
      · exact ⟨hholds.tempCh, hholds.reader, hholds.pieces, rfl⟩
      · rw [List.length_drop]
        omega
    · have hdrop : kept.drop size = [] := List.drop_eq_nil_of_le (by omega)
      have htake : kept.take size = kept := List.take_of_length_le (by omega)
      have hholds' : Holds { s with prev := [] } (encode y ++ txt) [] :=
        ⟨hholds.tempCh, hholds.reader, hholds.pieces, rfl⟩
      obtain ⟨s', hread, hrem⟩ := readLoop_spec y (size - kept.length) (size - kept.length) hholds'
        h.ends (Nat.le_refl _)
      refine ⟨s', ?_, ?_⟩
      · simp only [hprev, hdrop, htake, hread, Option.bind_eq_bind, Option.bind_some]
        rw [List.take_append, htake]
      · rw [List.drop_append, hdrop]
        exact hrem

theorem isEOF_iff {rest : List UInt8} (h : s.Remaining rest txt) : s.isEOF = true ↔ rest = [] := by
  obtain ⟨kept, y, rfl, hholds, -⟩ := h.split
  rw [isEOF, hholds.prev, Bool.and_eq_true, List.isEmpty_iff, List.append_eq_nil_iff,
    and_congr_right_iff]
  intro _
  match y, hholds with
  | [], hholds => exact ⟨fun _ => rfl, fun _ => hholds.atSpace h.ends⟩
  | [a], hholds => simp [Holds.not_atSpace hholds (first_char a)]
  | [a, b], hholds => simp [Holds.not_atSpace hholds (first_char a)]
  | a :: b :: c :: y, hholds =>
    rw [encode] at hholds
    simp [Holds.not_atSpace hholds (first_char a)]

/-- `InitPosition` finds the first character of the next string. -/
theorem initPosition_spec {x : List UInt8} (hx : x ≠ []) (hprev : s.prev = [])
    (hreader : readerText s.reader = encode x ++ txt) (hpieces : [] ∉ s.reader.pieces)
    (htxt : Ends txt) : s.initPosition.Remaining x txt := by
  have hnext := nextChar_holds hreader hpieces hprev
  have hspace : s.nextChar.tempCh.any isSpace = false := by
    rw [hnext.tempCh]
    match x, hx with
    | [a], _ => simp [encode, group1, first_char a]
    | [a, b], _ => simp [encode, group2, first_char a]
    | a :: b :: c :: x, _ => simp [encode, group3, first_char a]
  have hinit : s.initPosition = s.nextChar := by
    rw [initPosition, skipSpace, hspace]
    rfl
  rw [hinit]
  exact ⟨⟨[], x, rfl, hnext, by simp⟩, htxt⟩

end Base64InStream

/-- One string: the parts it is written in, the character for `Finish`, and the sizes it is read
with. -/
structure Item where
  chunks : List (List UInt8)
  endch : Option UInt8
  reads : List Nat

def Item.data (item : Item) : List UInt8 := item.chunks.flatten

/-- No string is empty and each is read to its end; a whitespace character follows it, or it is the
last one. -/
def Valid : List Item → Prop
  | [] => True
  | item :: items => item.data ≠ [] ∧ item.data.length ≤ item.reads.sum ∧
    (match item.endch with
      | some c => isSpace c = true
      | none => items = []) ∧
    Valid items

def writeItem (s : Base64OutStream) (item : Item) : Base64OutStream :=
  (item.chunks.foldl write s).finish item.endch

/-- The text of all strings. -/
def produce (items : List Item) : List UInt8 := (items.foldl writeItem Base64OutStream.create).fp

/-- The results of `Read` calls, each with `IsEOF` after it. -/
def readString (s : Base64InStream) : List Nat → Option (List (List UInt8 × Bool) × Base64InStream)
  | [] => some ([], s)
  | size :: sizes => do
    let (bytes, s) ← s.read size
    let (results, s') ← readString s sizes
    some ((bytes, s.isEOF) :: results, s')

/-- `InitPosition` and `IsEOF`, then the `Read` calls, for each string. -/
def readAll (s : Base64InStream) : List Item → Option (List (Bool × List (List UInt8 × Bool)))
  | [] => some []
  | item :: items => do
    let s := s.initPosition
    let (results, s') ← readString s item.reads
    let rest ← readAll s' items
    some ((s.isEOF, results) :: rest)

/-- The next `min size remaining` bytes for each size, and whether nothing is left. -/
def slices (data : List UInt8) : List Nat → List (List UInt8 × Bool)
  | [] => []
  | size :: sizes => (data.take size, (data.drop size).isEmpty) :: slices (data.drop size) sizes

def encodeItems (items : List Item) : List UInt8 :=
  items.flatMap fun item => encode item.data ++ item.endch.toList

theorem produce_eq (items : List Item) : produce items = encodeItems items := by
  suffices hfold : ∀ s : Base64OutStream, s.Encodes s.fp [] →
      (items.foldl writeItem s).fp = s.fp ++ encodeItems items by
    have hcreate : Base64OutStream.create.Encodes Base64OutStream.create.fp [] :=
      ⟨⟨[], rfl, Nat.dvd_zero 3, rfl⟩, Nat.zero_lt_succ 2⟩
    rw [produce, hfold _ hcreate]
    rfl
  induction items with
  | nil => simp [encodeItems]
  | cons item items ih =>
    intro s hs
    obtain ⟨hfp, hnext⟩ := (hs.writes item.chunks).finish item.endch
    rw [List.foldl_cons, ih (writeItem s item) hnext, writeItem, hfp]
    simp [encodeItems, Item.data]

open Base64InStream

theorem readString_spec {s : Base64InStream} {data txt : List UInt8} (sizes : List Nat)
    (h : s.Remaining data txt) :
    ∃ s', readString s sizes = some (slices data sizes, s') ∧
      s'.Remaining (data.drop sizes.sum) txt := by
  induction sizes generalizing s data with
  | nil => exact ⟨s, rfl, by simpa using h⟩
  | cons size sizes ih =>
    obtain ⟨s₁, hread, h₁⟩ := read_spec h size
    obtain ⟨s', hrest, h'⟩ := ih h₁
    have heof : s₁.isEOF = (data.drop size).isEmpty := by
      rw [Bool.eq_iff_iff, isEOF_iff h₁, List.isEmpty_iff]
    refine ⟨s', ?_, ?_⟩
    · simp only [readString, hread, hrest, Option.bind_eq_bind, Option.bind_some, heof, slices]
    · rw [List.drop_drop] at h'
      rw [List.sum_cons]
      exact h'

theorem readAll_spec {s : Base64InStream} (items : List Item) (hitems : Valid items)
    (hprev : s.prev = []) (hreader : readerText s.reader = encodeItems items)
    (hpieces : [] ∉ s.reader.pieces) :
    readAll s items = some (items.map fun item => (false, slices item.data item.reads)) := by
  induction items generalizing s with
  | nil => rfl
  | cons item items ih =>
    obtain ⟨hdata, hreads, hend, hrest⟩ := hitems
    have hsplit : encodeItems (item :: items) =
        encode item.data ++ (item.endch.toList ++ encodeItems items) := by
      simp [encodeItems]
    -- behind the string there is a whitespace character or nothing
    have hends : Ends (item.endch.toList ++ encodeItems items) ∧
        (item.endch.toList ++ encodeItems items).tail = encodeItems items := by
      cases hc : item.endch with
      | some c =>
        rw [hc] at hend
        exact ⟨by simpa [Ends] using hend, rfl⟩
      | none =>
        rw [hc] at hend
        have hnil : items = [] := hend
        rw [hnil]
        exact ⟨rfl, rfl⟩
    have hinit := initPosition_spec hdata hprev (hreader.trans hsplit) hpieces hends.1
    have heof : s.initPosition.isEOF = false := by
      rw [Bool.eq_false_iff, ne_eq, isEOF_iff hinit]
      exact hdata
    obtain ⟨s', hread, h'⟩ := readString_spec item.reads hinit
    rw [List.drop_eq_nil_of_le hreads] at h'
    obtain ⟨kept, y, hnil, hholds, -⟩ := h'.split
    obtain ⟨rfl, rfl⟩ := List.append_eq_nil_iff.mp hnil.symm
    have hrestRead := ih hrest hholds.prev (hholds.reader.trans hends.2) hholds.pieces
    simp only [readAll, hread, hrestRead, Option.bind_eq_bind, Option.bind_some, heof,
      List.map_cons]

/-- Strings written in any parts and read with any sizes come back, from a stream that delivers the
text in any pieces. -/
theorem base64_round_trip (items : List Item) (pieces : List (List UInt8)) (hitems : Valid items)
    (hpieces : [] ∉ pieces) (htext : pieces.flatten = produce items) :
    readAll (Base64InStream.create pieces) items =
      some (items.map fun item => (false, slices item.data item.reads)) := by
  apply readAll_spec items hitems rfl _ hpieces
  rw [← produce_eq items, ← htext]
  rfl

/-- Two strings, written and read in different parts. -/
def sampleItems : List Item :=
  [⟨[[1], [2, 255, 4]], some 10, [1, 2, 5]⟩, ⟨[[250, 7]], none, [1, 1]⟩]

theorem base64_round_trip_sample :
    readAll (Base64InStream.create ((produce sampleItems).map fun c => [c])) sampleItems =
      some [(false, [([1], false), ([2, 255], false), ([4], true)]),
        (false, [([250], false), ([7], true)])] :=
  base64_round_trip sampleItems ((produce sampleItems).map fun c => [c])
    (by simp [Valid, sampleItems, Item.data, isSpace]) (by simp) (by decide)

end StencilGraph.Support.Base64
