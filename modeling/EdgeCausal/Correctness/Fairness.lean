import EdgeCausal.Api.Fairness

/-!
# `Correctness.Fairness` — the fairness index is a Gini coefficient

The rank formula over the sorted stalls is the mean absolute difference over twice the mean. Everything a reader
expects of the index follows from that form: the order and the unit of the stalls do not matter, it is 0 for
equal stalls only, and it is greatest when one pod has all of the stall.
-/

namespace EdgeCausal.Api

open Lib

variable {xs ys : List ℚ}

/-- **The rank formula is the pairwise one.** -/
theorem giniRaw_eq (hpos : ∀ x ∈ xs, 0 ≤ x) : giniRaw xs = spread xs / (2 * xs.length * xs.sum) := by
  have hperm := sortOn_perm id xs
  have hfilter : xs.filter (fun v => 0 ≤ v) = xs := List.filter_eq_self.mpr (by simpa using hpos)
  unfold giniRaw
  dsimp only
  rw [hfilter, hperm.sum_eq, hperm.length_eq]
  by_cases hzero : xs.length = 0 ∨ xs.sum = 0
  · rw [if_pos hzero]
    rcases hzero with hlen | hsum
    · simp [hlen]
    · simp [hsum]
  · obtain ⟨hlen, hsum⟩ := not_or.mp hzero
    have hlen' : (xs.length : ℚ) ≠ 0 := by exact_mod_cast hlen
    have hspread := spread_eq (sortOn_pairwise id xs)
    rw [spread_perm hperm, hperm.sum_eq, hperm.length_eq] at hspread
    rw [if_neg hzero, hspread]
    field_simp

theorem spread_scaled {c : ℚ} (hc : 0 < c) (xs : List ℚ) : spread (xs.map fun x => c * x) = c * spread xs := by
  unfold spread
  rw [List.map_map, ← List.sum_map_mul_left]
  refine congrArg List.sum (List.map_congr_left fun x _ => ?_)
  simp only [Function.comp_apply]
  rw [List.map_map, ← List.sum_map_mul_left]
  refine congrArg List.sum (List.map_congr_left fun y _ => ?_)
  simp only [Function.comp_apply]
  rw [← mul_sub, abs_mul, abs_of_pos hc]

/-- Non-negative stalls that are not all zero have a positive sum. -/
theorem sum_pos_iff (hpos : ∀ x ∈ xs, 0 ≤ x) : 0 < xs.sum ↔ 0 < xs.countP (· ≠ 0) := by
  rw [List.countP_pos_iff]
  constructor
  · intro hsum
    by_contra hnone
    push Not at hnone
    have hzero : xs.sum = 0 := List.sum_eq_zero fun x hx => by simpa using hnone x hx
    exact hsum.ne' hzero
  · rintro ⟨x, hx, hne⟩
    have hx0 := lt_of_le_of_ne (hpos x hx) (Ne.symm (by simpa using hne))
    exact hx0.trans_le (List.single_le_sum hpos x hx)

/-- The greatest value of the index, where something stalls. -/
theorem giniRaw_top (hsum : 0 < xs.sum) (hn : 2 ≤ xs.length) (hpos : ∀ x ∈ xs, 0 ≤ x) :
    giniRaw xs ≤ (xs.length - 1) / xs.length ∧
      (giniRaw xs = (xs.length - 1) / xs.length ↔ xs.countP (· ≠ 0) ≤ 1) := by
  have hlen : (0 : ℚ) < xs.length := by exact_mod_cast (by omega)
  obtain ⟨hle, heq⟩ := spread_le_top hpos
  have htop : ((xs.length : ℚ) - 1) / xs.length = 2 * (xs.length - 1) * xs.sum / (2 * xs.length * xs.sum) := by
    field_simp
  have hden : 0 < 2 * (xs.length : ℚ) * xs.sum := by positivity
  rw [giniRaw_eq hpos, htop, ← heq]
  exact ⟨div_le_div_of_nonneg_right hle hden.le, div_left_inj' hden.ne'⟩

/-- The unit stalls are measured in does not matter. -/
theorem giniRaw_scaled {c : ℚ} (hc : 0 < c) (hpos : ∀ x ∈ xs, 0 ≤ x) :
    giniRaw (xs.map fun x => c * x) = giniRaw xs := by
  have hscaled : ∀ x ∈ xs.map fun x => c * x, 0 ≤ x := by
    simp only [List.mem_map]
    rintro _ ⟨x, hx, rfl⟩
    exact mul_nonneg hc.le (hpos x hx)
  have hden : 2 * (xs.length : ℚ) * (c * xs.sum) = c * (2 * xs.length * xs.sum) := by ring
  rw [giniRaw_eq hpos, giniRaw_eq hscaled, spread_scaled hc, List.sum_map_mul_left, List.length_map,
    List.map_id', hden, mul_div_mul_left _ _ hc.ne']

/-- Where nothing stalls all stalls are 0. -/
theorem all_zero_of_sum (hpos : ∀ x ∈ xs, 0 ≤ x) (hsum : xs.sum = 0) : ∀ x ∈ xs, x = 0 :=
  fun x hx => le_antisymm (hsum ▸ List.single_le_sum hpos x hx) (hpos x hx)

/-- The index is 0 for equal stalls and no others. -/
theorem giniRaw_eq_zero_iff (hn : xs ≠ []) (hpos : ∀ x ∈ xs, 0 ≤ x) :
    giniRaw xs = 0 ↔ ∀ x ∈ xs, ∀ y ∈ xs, x = y := by
  have hlen : (xs.length : ℚ) ≠ 0 := by simpa using hn
  rw [giniRaw_eq hpos, ← spread_eq_zero_iff, div_eq_zero_iff]
  constructor
  · rintro (hspread | hzero)
    · exact hspread
    · have hsum : xs.sum = 0 := by simpa [hlen] using hzero
      have hall := all_zero_of_sum hpos hsum
      rw [spread_eq_zero_iff]
      intro x hx y hy
      rw [hall x hx, hall y hy]
  · exact Or.inl

/-- The index is at its greatest when one stall is all there is. -/
theorem giniRaw_eq_top_iff (hn : 2 ≤ xs.length) (hpos : ∀ x ∈ xs, 0 ≤ x) :
    giniRaw xs = (xs.length - 1) / xs.length ↔ xs.countP (· ≠ 0) = 1 := by
  have hlen : (2 : ℚ) ≤ xs.length := by exact_mod_cast hn
  have hcount := sum_pos_iff hpos
  rcases (List.sum_nonneg hpos).eq_or_lt with hzero | hsum
  · have htop : 0 < ((xs.length : ℚ) - 1) / xs.length := div_pos (by linarith) (by linarith)
    rw [← hzero] at hcount
    rw [giniRaw_eq hpos, ← hzero, mul_zero, div_zero]
    refine iff_of_false htop.ne fun hone => ?_
    exact lt_irrefl 0 (hcount.mpr (hone ▸ Nat.one_pos))
  · have hsome := hcount.mp hsum
    rw [(giniRaw_top hsum hn hpos).2]
    omega

/-- **The fairness index is a Gini coefficient**, before rounding. -/
theorem gini_coefficient (xs : List ℚ) (hn : 2 ≤ xs.length) (hpos : ∀ x ∈ xs, 0 ≤ x) :
    (∀ ys, ys.Perm xs → giniRaw ys = giniRaw xs) ∧
    (∀ c, 0 < c → giniRaw (xs.map fun x => c * x) = giniRaw xs) ∧
    0 ≤ giniRaw xs ∧ giniRaw xs ≤ (xs.length - 1) / xs.length ∧
    (giniRaw xs = 0 ↔ ∀ x ∈ xs, ∀ y ∈ xs, x = y) ∧
    (giniRaw xs = (xs.length - 1) / xs.length ↔ xs.countP (· ≠ 0) = 1) ∧
    (0 < xs.sum →
      giniRaw xs = (xs.map fun x => (xs.map fun y => |x - y|).sum).sum / (2 * xs.length * xs.sum)) := by
  have hsum : 0 ≤ xs.sum := List.sum_nonneg hpos
  have hne : xs ≠ [] := List.ne_nil_of_length_pos (by omega)
  have hraw := giniRaw_eq hpos
  refine ⟨?_, fun c hc => giniRaw_scaled hc hpos, ?_, ?_, giniRaw_eq_zero_iff hne hpos,
    giniRaw_eq_top_iff hn hpos, fun _ => hraw⟩
  · intro ys hperm
    rw [hraw, giniRaw_eq fun y hy => hpos y (hperm.mem_iff.mp hy), spread_perm hperm, hperm.sum_eq,
      hperm.length_eq]
  · rw [hraw]
    exact div_nonneg (spread_nonneg xs) (by positivity)
  · rcases hsum.eq_or_lt with hzero | hpos'
    · have hlen : (2 : ℚ) ≤ xs.length := by exact_mod_cast hn
      rw [hraw, ← hzero, mul_zero, div_zero]
      exact div_nonneg (by linarith) (by linarith)
    · exact (giniRaw_top hpos' hn hpos).1

/-- Three pods, one of which has all of the stall. -/
theorem gini_coefficient_one : giniRaw [0, 3 / 10, 0] = 2 / 3 := by
  have h := gini_coefficient [0, 3 / 10, 0] (by decide) (by decide +kernel)
  exact (h.2.2.2.2.2.1.mpr (by decide +kernel)).trans (by norm_num)

/-! ## The rows -/

/-- The stalls of a namespace's workloads. -/
def stallsOf (stallByKey : Dict (String × Workload) ℚ) (ns : String) : List ℚ :=
  (stallByKey.entries.filter fun e => e.1.1 = ns).map Prod.snd

/-- The grouping loop gathers each namespace's own stalls. -/
theorem stallsByNs_get? (stallByKey : Dict (String × Workload) ℚ) (ns : String) : (stallsByNs stallByKey).get? ns =
    if stallsOf stallByKey ns = [] then none else some (stallsOf stallByKey ns) := by
  have hstep : ∀ (d : Dict String (List ℚ)) (e : (String × Workload) × ℚ) k,
      (d.set e.1.1 ((d.get? e.1.1).getD [] ++ [e.2])).get? k =
        if some e.1.1 = some k then some ((d.get? k).getD [] ++ [e.2]) else d.get? k := by
    intro d e k
    rw [Dict.get?_set]
    by_cases hk : k = e.1.1
    · simp [hk]
    · simp [hk, Ne.symm hk]
  have hloop := Dict.get?_foldl_update (f := fun e row => row.getD [] ++ [e.2]) hstep stallByKey.entries ∅ ns
  unfold stallsByNs stallsOf
  rw [hloop]
  simp only [Option.some.injEq, Dict.get?_empty]
  generalize (stallByKey.entries.filter fun e => e.1.1 = ns) = es
  induction es using List.reverseRecOn with
  | nil => rfl
  | append_singleton es e ih =>
      rw [List.foldl_append, List.foldl_cons, List.foldl_nil, ih, List.map_append]
      by_cases hnil : es.map Prod.snd = []
      · simp [hnil]
      · simp [hnil]

/-- **A row for each namespace that has workloads**, with the index of their stalls. -/
theorem mem_fairness_iff {stallByKey : Dict (String × Workload) ℚ} {row : FairnessRow} :
    row ∈ fairness stallByKey ↔ stallsOf stallByKey row.ns ≠ [] ∧ row.gini = gini (stallsOf stallByKey row.ns) ∧
      row.workloads = (stallsOf stallByKey row.ns).length := by
  have hentry : ∀ ns vs, (ns, vs) ∈ (stallsByNs stallByKey).entries ↔
      stallsOf stallByKey ns ≠ [] ∧ stallsOf stallByKey ns = vs := by
    intro ns vs
    rw [← Dict.get?_eq_some_iff, stallsByNs_get?]
    by_cases hnil : stallsOf stallByKey ns = [] <;> simp [hnil]
  unfold fairness
  rw [List.mem_map]
  constructor
  · rintro ⟨⟨ns, vs⟩, he, rfl⟩
    obtain ⟨hne, rfl⟩ := (hentry ns vs).mp (mem_sortOn.mp he)
    exact ⟨hne, rfl, rfl⟩
  · obtain ⟨ns, g, n⟩ := row
    rintro ⟨hne, hg, hn⟩
    dsimp only at hne hg hn
    subst hg hn
    exact ⟨(ns, stallsOf stallByKey ns), mem_sortOn.mpr ((hentry _ _).mpr ⟨hne, rfl⟩), rfl⟩

end EdgeCausal.Api
