import StencilGraph.Arith.ConstIntBoundSound
import StencilGraph.Arith.ModularSetSound

namespace StencilGraph.Arith
open PrimExpr

/-- Both analyses take a cast to keep the value of its operand, and are sound for the casts that do.
The facts of the constant bounds may have casts in their ranges. -/
theorem casts_sound {e : PrimExpr} {ρ : Assignment} :
    (e.CastSigned → e.CastsFit ρ → e.WellDefined ρ →
      ∀ (acts : List ConstIntBoundAnalyzer.Act) s, ConstIntBoundAnalyzer.run acts = .ok s →
        (∀ act ∈ acts, (act.CastWellFormed (acts.flatMap ConstIntBoundAnalyzer.Act.taken) ∧
          act.CastsFit ρ) ∧ act.Holds ρ) →
        e.BoundOnce (acts.flatMap ConstIntBoundAnalyzer.Act.taken) →
        (∀ entry, ConstIntBoundAnalyzer.visitExpr e s = .ok entry →
          entry.minValue ≤ e.eval ρ ∧ e.eval ρ ≤ entry.maxValue) ∧
        (¬ e.CastDividesNarrow → ∃ entry, ConstIntBoundAnalyzer.visitExpr e s = .ok entry)) ∧
    (e.CastModular → e.DividesAndFits ρ →
      ∀ (acts : List ModularSetAnalyzer.Act) s prove, ModularSetAnalyzer.run id acts = .ok s →
        (∀ act ∈ acts, act.Holds ρ) →
        (∀ c ∈ ModularSetAnalyzer.openConstraints acts, c.eval ρ ≠ 0) →
        e.BoundOnce (acts.flatMap ModularSetAnalyzer.Act.taken) →
        ModularSetAnalyzer.SoundProver prove e ρ →
        ∃ entry, ModularSetAnalyzer.visitExpr id prove e s = .ok entry ∧ 0 ≤ entry.coeff ∧
          entry.coeff ∣ e.eval ρ - entry.base ∧ (entry.coeff = 0 → e.eval ρ = entry.base)) := by
  constructor
  · intro he hc hd acts s hrun hacts honce
    have hsound := ConstIntBoundAnalyzer.run_visitExpr_sound hrun hacts he hc honce hd
    cases hentry : ConstIntBoundAnalyzer.visitExpr e s with
    | ok entry =>
      rw [hentry] at hsound
      constructor
      · intro entry' h
        cases h
        exact ConstIntBoundAnalyzer.Entry.Sound.contains hsound
      · intro _
        exact ⟨entry, rfl⟩
    | error c =>
      rw [hentry] at hsound
      constructor
      · intro entry h
        cases h
      · intro hnarrow
        exact absurd hsound hnarrow
  · intro he hd acts s prove hrun hholds hopen honce hp
    exact ModularSetAnalyzer.run_visitExpr_sound hrun hholds hopen he honce hd hp

/-- A variable of 32 bits narrowed to eight. -/
def narrowed : PrimExpr := .cast .int8 (.var 0 .int32)

/-- What is known of the variable: it is at most 300, and a multiple of three. -/
def narrowedBounds : List ConstIntBoundAnalyzer.Act :=
  [.update 0 ⟨0, 300, by decide, by decide⟩ false]

def narrowedFacts : List ModularSetAnalyzer.Act := [.update 0 3 0 false]

/-- The variable is 120, which eight bits represent. -/
theorem casts_sound_narrowed : ∃ s t entry facts,
    ConstIntBoundAnalyzer.run narrowedBounds = .ok s ∧
    ModularSetAnalyzer.run id narrowedFacts = .ok t ∧
    ConstIntBoundAnalyzer.visitExpr narrowed s = .ok entry ∧
    ModularSetAnalyzer.visitExpr id (fun _ _ => false) narrowed t = .ok facts ∧
    (entry.minValue ≤ 120 ∧ 120 ≤ entry.maxValue) ∧ facts.coeff ∣ 120 - facts.base := by
  obtain ⟨s, hs⟩ : ∃ s, ConstIntBoundAnalyzer.run narrowedBounds = .ok s := ⟨_, rfl⟩
  obtain ⟨t, ht⟩ : ∃ t, ModularSetAnalyzer.run id narrowedFacts = .ok t := ⟨_, rfl⟩
  obtain ⟨hbound, hmod⟩ := casts_sound (e := narrowed) (ρ := fun _ => 120)
  obtain ⟨hcontains, hentry⟩ := hbound ⟨rfl, rfl⟩ ⟨trivial, by decide⟩ (by decide) narrowedBounds s hs
    (by
      intro act h
      cases List.mem_singleton.mp h
      exact ⟨⟨trivial, trivial⟩, by decide, by decide⟩)
    (by decide)
  obtain ⟨entry, hentry⟩ := hentry (by intro h; exact h)
  obtain ⟨facts, hfacts, -, hdvd, -⟩ := hmod ⟨rfl, trivial⟩ ⟨trivial, by decide⟩ narrowedFacts t
    (fun _ _ => false) ht
    (by
      intro act h
      cases List.mem_singleton.mp h
      exact ⟨40, rfl⟩)
    (by decide) (by decide)
    (by
      intro s lhs ρ' _ _ h
      cases h)
  exact ⟨s, t, entry, facts, hs, ht, hentry, hfacts, hcontains entry hentry, hdvd⟩

/-- The variable is 201, which wraps to -55: outside the bound of the cast, and no multiple of
three. -/
theorem cast_wraps : ∃ s t entry facts,
    ConstIntBoundAnalyzer.run narrowedBounds = .ok s ∧
    ModularSetAnalyzer.run id narrowedFacts = .ok t ∧
    (∀ act ∈ narrowedBounds, act.Holds fun _ => 201) ∧
    (∀ act ∈ narrowedFacts, act.Holds fun _ => 201) ∧
    narrowed.CastSigned ∧ narrowed.WellDefined (fun _ => 201) ∧
    ConstIntBoundAnalyzer.visitExpr narrowed s = .ok entry ∧
    ¬ (entry.minValue ≤ narrowed.eval fun _ => 201) ∧
    ModularSetAnalyzer.visitExpr id (fun _ _ => false) narrowed t = .ok facts ∧
    ¬ facts.coeff ∣ (narrowed.eval fun _ => 201) - facts.base := by
  refine ⟨_, _, ⟨0, 127⟩, ⟨3, 0⟩, rfl, rfl, ?_, ?_, ⟨rfl, rfl⟩, by decide, rfl, by decide, rfl, by decide⟩
  · intro act h
    cases List.mem_singleton.mp h
    exact ⟨by decide, by decide⟩
  · intro act h
    cases List.mem_singleton.mp h
    exact ⟨67, rfl⟩

end StencilGraph.Arith
