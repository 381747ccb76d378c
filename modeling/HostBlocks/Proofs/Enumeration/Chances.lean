import HostBlocks.Proofs.Enumeration.Selections
import Mathlib.Data.List.GetD
import Mathlib.Probability.Distributions.Uniform
import Mathlib.Probability.Independence.Basic

/-!
# All selections are equally likely

If the positions that a shuffle draws are independent and each is uniform on its range, then all lists
of positions in range have one probability, and so have the selections of blocks, which correspond to
them one to one.
-/
namespace HostBlocks

open MeasureTheory ProbabilityTheory
open scoped ENNReal

namespace Source

variable {σ : Type}

/-- If the numbers drawn are independent and each is uniform on its range, then every list of numbers
in range is drawn with the same probability. -/
theorem measure_draws_eq {Ω : Type} [MeasurableSpace Ω] {μ : Measure Ω} (source : Source σ)
    (start : Ω → σ) {n k : Nat} {js : List Nat} (hlen : js.length = k) (hjs : Ranged n 0 js)
    (hindep : iIndepFun (fun (i : Fin k) ω => (source.draws n 0 k (start ω)).getD i 0) μ)
    (huniform : ∀ (i : Fin k) (j : Nat), i ≤ j → j < n →
      μ {ω | (source.draws n 0 k (start ω)).getD i 0 = j} = ((n - i : Nat) : ℝ≥0∞)⁻¹) :
    μ {ω | source.draws n 0 k (start ω) = js} = (n.descFactorial k : ℝ≥0∞)⁻¹ := by
  let draw (i : Fin k) (ω : Ω) : Nat := (source.draws n 0 k (start ω)).getD i 0
  have hdrawn : {ω | source.draws n 0 k (start ω) = js} =
      ⋂ i ∈ (Finset.univ : Finset (Fin k)), Set.preimage (draw i) {js.getD i 0} := by
    ext ω
    simp only [draw, Set.mem_ofPred_eq, Set.mem_iInter, Finset.mem_univ, Set.mem_preimage,
      Set.mem_singleton_iff, true_implies]
    constructor
    · intro h i
      rw [h]
    · intro h
      apply List.ext_getElem (by rw [length_draws, hlen])
      intro i hi hi'
      have hget := h ⟨i, hlen ▸ hi'⟩
      rwa [List.getD_eq_getElem _ _ hi, List.getD_eq_getElem _ _ hi'] at hget
  have hdraw : ∀ i, μ (Set.preimage (draw i) {js.getD i 0}) = ((n - i : Nat) : ℝ≥0∞)⁻¹ := by
    intro i
    have hi : i < js.length := hlen ▸ i.isLt
    have hrange := hjs i hi
    rw [Nat.zero_add] at hrange
    rw [List.getD_eq_getElem _ _ hi]
    exact huniform i _ hrange.1 hrange.2
  calc
    _ = ∏ i, μ (Set.preimage (draw i) {js.getD i 0}) := by
      rw [hdrawn, hindep.measure_inter_preimage_eq_mul _ fun i _ => measurableSet_singleton _]
    _ = ∏ i : Fin k, ((n - i : Nat) : ℝ≥0∞)⁻¹ := Finset.prod_congr rfl fun i _ => hdraw i
    _ = (∏ i : Fin k, ((n - i : Nat) : ℝ≥0∞))⁻¹ := by
      rw [ENNReal.prod_inv_distrib]
      exact fun _ _ j _ _ => Or.inr (ENNReal.natCast_ne_top _)
    _ = (n.descFactorial k : ℝ≥0∞)⁻¹ := by
      rw [Nat.descFactorial_eq_prod_range, Finset.prod_range, Nat.cast_prod]

/-- Draws that are independent and uniform on their ranges exist. -/
theorem exists_uniform_draws {n k : Nat} (hk : k ≤ n) :
    ∃ (Ω : Type) (_ : MeasurableSpace Ω) (μ : Measure Ω) (start : Ω → List Nat),
      let draw (i : Fin k) (ω : Ω) : Nat := (scripted.draws n 0 k (start ω)).getD i 0
      iIndepFun draw μ ∧ ∀ (i : Fin k) (j : Nat), i ≤ j → j < n →
        μ {ω | draw i ω = j} = ((n - i : Nat) : ℝ≥0∞)⁻¹ := by
  have hne : ∀ i : Fin k, Nonempty (Fin (n - i)) := fun i => ⟨⟨0, by omega⟩⟩
  let law (i : Fin k) : Measure (Fin (n - i)) := (PMF.uniformOfFintype (Fin (n - i))).toMeasure
  let start (ω : ∀ i : Fin k, Fin (n - i)) : List Nat := List.ofFn fun i => i + (ω i).val
  have hdraw : ∀ (i : Fin k) ω, (scripted.draws n 0 k (start ω)).getD i 0 = i + (ω i).val := by
    intro i ω
    have hlen : (start ω).length = k := List.length_ofFn
    have hranged : Ranged n 0 (start ω) := by
      intro m hm
      have hlt : (ω ⟨m, hlen ▸ hm⟩).val < n - m := (ω ⟨m, hlen ▸ hm⟩).isLt
      simp only [start, List.getElem_ofFn]
      omega
    have hdraws := draws_scripted hranged
    rw [hlen] at hdraws
    rw [hdraws, List.getD_eq_getElem _ _ (hlen.symm ▸ i.isLt)]
    simp only [start, List.getElem_ofFn]
  refine ⟨_, inferInstance, Measure.pi law, start, ?_, ?_⟩
  · simp only [hdraw]
    exact iIndepFun_pi (X := fun (i : Fin k) (a : Fin (n - i)) => i.val + a.val) fun i =>
      Measurable.of_discrete.aemeasurable
  · intro i j hij hj
    have hset : {ω | (scripted.draws n 0 k (start ω)).getD i 0 = j} =
        Set.preimage (Function.eval i) {⟨j - i, by omega⟩} := by
      ext ω
      rw [Set.mem_ofPred_eq, hdraw, Set.mem_preimage, Set.mem_singleton_iff, Fin.ext_iff]
      show i + (ω i).val = j ↔ (ω i).val = j - i
      omega
    rw [hset, (measurePreserving_eval law i).measure_preimage
      (measurableSet_singleton _).nullMeasurableSet]
    rw [PMF.toMeasure_apply_singleton _ _ (measurableSet_singleton _), PMF.uniformOfFintype_apply,
      Fintype.card_fin]

end Source

namespace Shuffle

/-- A shuffle takes each sequence of draws in range to a selection of blocks, a list of blocks of the
pool without repetition, and each selection comes from one such sequence. So if the draws of a source
are independent and uniform on their ranges, all selections are equally likely. -/
theorem draws_select_blocks {pool : Network} {length : Nat} {shuffle : Shuffle}
    (hshuffle : of pool length = .ok shuffle) {k : Nat} (hk : k ≤ shuffle.layout.count) :
    let n := shuffle.layout.count
    let draws : Set (List Nat) :=
      {js | js.length = k ∧ ∀ i (h : i < js.length), i ≤ js[i] ∧ js[i] < n}
    let selections : Set (List Network) := {chosen | chosen.length = k ∧ chosen.Nodup ∧
      ∀ c ∈ chosen, pool.includes c ∧ c.length = length ∧ c.trunc = c}
    Set.BijOn (shuffle.firstBlocks .scripted k) draws selections ∧
    (∀ {σ : Type} (source : Source σ) (r : σ), source.draws n 0 k r ∈ draws ∧
      shuffle.firstBlocks source k r =
        shuffle.firstBlocks .scripted k (source.draws n 0 k r)) ∧
    ∀ {σ Ω : Type} [MeasurableSpace Ω] (μ : Measure Ω) (source : Source σ) (start : Ω → σ),
      let draw (i : Fin k) (ω : Ω) : Nat := (source.draws n 0 k (start ω)).getD i 0
      iIndepFun draw μ →
      (∀ (i : Fin k) (j : Nat), i ≤ j → j < n →
        μ {ω | draw i ω = j} = ((n - i : Nat) : ℝ≥0∞)⁻¹) →
      ∀ chosen ∈ selections,
        μ {ω | shuffle.firstBlocks source k (start ω) = chosen} =
          (n.descFactorial k : ℝ≥0∞)⁻¹ := by
  obtain ⟨l, hl, rfl⟩ : ∃ l, Layout.of pool length = .ok l ∧ start l = shuffle := by
    cases hl : Layout.of pool length with
    | error e => simp [of, hl, Except.map] at hshuffle
    | ok l => exact ⟨l, rfl, by simpa [of, hl, Except.map] using hshuffle⟩
  obtain ⟨rfl, rfl⟩ := l.of_eq_ok_iff.1 hl
  have hcount : k ≤ l.count := hk
  intro n draws selections
  have hdraws : draws = {js | js.length = k ∧ Source.Ranged n 0 js} := by
    simp only [draws, Source.Ranged, Nat.zero_add]
  have hselections : selections =
      {chosen | chosen.length = k ∧ chosen.Nodup ∧ ∀ c ∈ chosen, c ∈ l.blocks} := by
    simp only [selections, l.mem_blocks_iff]
  have hbij : Set.BijOn ((start l).firstBlocks .scripted k) draws selections := by
    rw [hdraws, hselections]
    exact bijOn_firstBlocks hcount
  have hsource : ∀ {σ : Type} (source : Source σ) (r : σ), source.draws n 0 k r ∈ draws ∧
      (start l).firstBlocks source k r =
        (start l).firstBlocks .scripted k (source.draws n 0 k r) := by
    intro σ source r
    have hlen := source.length_draws l.count 0 k r
    have hranged : Source.Ranged l.count 0 (source.draws l.count 0 k r) := source.ranged_draws r (by omega)
    have hfirst := firstBlocks_scripted hlen hranged hcount
    exact ⟨hdraws ▸ ⟨hlen, hranged⟩, (firstBlocks_start source r hcount).trans hfirst.symm⟩
  refine ⟨hbij, hsource, ?_⟩
  intro σ Ω _ μ source start draw hindep huniform chosen hchosen
  obtain ⟨js, hjs, rfl⟩ := hbij.surjOn hchosen
  obtain ⟨hlen, hranged⟩ := hdraws ▸ hjs
  rw [← source.measure_draws_eq start hlen hranged hindep huniform]
  congr 1
  ext ω
  obtain ⟨hmem, hfirst⟩ := hsource source (start ω)
  rw [Set.mem_ofPred_eq, Set.mem_ofPred_eq, hfirst]
  exact hbij.injOn.eq_iff hmem hjs

/-- Three of the four blocks of a pool with host bits, by independent uniform draws: each of the 24
selections has the same probability. -/
theorem draws_select_blocks_of_four :
    let pool : Network := ⟨⟨.v4, 0x0A00004D, by decide⟩, 24, by decide⟩
    let l : Layout := ⟨pool, 26, by decide, by decide, by decide, by decide⟩
    (of pool 26 = .ok (start l) ∧ 3 ≤ (start l).layout.count) ∧
      ∃ (Ω : Type) (_ : MeasurableSpace Ω) (μ : Measure Ω) (position : Ω → List Nat),
        ∀ chosen : List Network, chosen.length = 3 → chosen.Nodup →
          (∀ c ∈ chosen, pool.includes c ∧ c.length = 26 ∧ c.trunc = c) →
          μ {ω | (start l).firstBlocks .scripted 3 (position ω) = chosen} = 24⁻¹ := by
  intro pool l
  have hlayout : Layout.of pool 26 = .ok l := l.of_eq_ok_iff.2 ⟨rfl, rfl⟩
  have hshuffle : of pool 26 = .ok (start l) := by rw [of, hlayout]; rfl
  have hcount : 3 ≤ (start l).layout.count := by decide
  obtain ⟨Ω, _, μ, position, hindep, huniform⟩ := Source.exists_uniform_draws hcount
  obtain ⟨-, -, hequal⟩ := draws_select_blocks hshuffle hcount
  refine ⟨⟨hshuffle, hcount⟩, Ω, _, μ, position, fun chosen hlen hnodup hmem => ?_⟩
  rw [hequal μ .scripted position hindep huniform chosen ⟨hlen, hnodup, hmem⟩]
  rfl

end Shuffle

end HostBlocks
