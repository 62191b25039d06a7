import EdgeCausal.Engine.State

/-!
# `Correctness.Render` — what a rendered edge stands for

A rendered edge is an edge of the pass, marked from its row, or a row of the memory held against the pods
that carry its two workloads now. Nothing else is rendered.
-/

namespace EdgeCausal

open Lib

variable {cfg : MemoryConfig} {rows : Dict EdgeKey EdgeRow} {vectors : Dict Pod Series} {now : ℚ}
  {edges : List Edge} {s : ServedEdge}

/-- The pod of a workload is live and carries it. -/
theorem workloadPod_spec {wl : Workload} {p : Pod} (h : (workloadPod vectors).get? wl = some p) :
    stableWorkload p = wl ∧ p ∈ vectors.keys := by
  obtain ⟨q, hq, heq⟩ := List.mem_map.mp (Dict.mem_of_get?_ofList h)
  obtain ⟨rfl, rfl⟩ := Prod.mk.inj heq
  exact ⟨rfl, hq⟩

/-- The rows that compete to be held for a workload pair. -/
def rivals (cfg : MemoryConfig) (rows : Dict EdgeKey EdgeRow) (pair : Workload × Workload) :
    List (EdgeKey × EdgeRow) :=
  rows.entries.filter fun kr => frozenPair kr.1.1 kr.1.2.1 = pair ∧ holdable cfg kr.1 kr.2 = true

theorem mem_rivals {pair : Workload × Workload} {kr : EdgeKey × EdgeRow} :
    kr ∈ rivals cfg rows pair ↔
      rows.get? kr.1 = some kr.2 ∧ frozenPair kr.1.1 kr.1.2.1 = pair ∧ holdable cfg kr.1 kr.2 = true := by
  unfold rivals
  rw [List.mem_filter, decide_eq_true_iff, Dict.get?_eq_some_iff]

theorem rivalPair_eq_some {live : List (Workload × Workload)} {kr : EdgeKey × EdgeRow}
    {pair : Workload × Workload} : rivalPair live kr = some pair ↔ frozenPair kr.1.1 kr.1.2.1 = pair ∧
    pair ∉ live := by
  unfold rivalPair
  split
  · rename_i hlive
    constructor
    · intro h; exact absurd h (by simp)
    · rintro ⟨rfl, hfree⟩; exact absurd hlive hfree
  · rename_i hfree
    rw [Option.some.injEq]
    exact ⟨fun h => ⟨h, h ▸ hfree⟩, fun h => h.1⟩

/-- One row of the loop, seen from one pair. -/
theorem get?_strongest (live : List (Workload × Workload)) (d : Dict (Workload × Workload) (EdgeKey × EdgeRow))
    (kr : EdgeKey × EdgeRow) (pair : Workload × Workload) :
    (strongest live d kr).get? pair
      = if rivalPair live kr = some pair then some (better (fun kr => kr.2.confidence) kr (d.get? pair))
        else d.get? pair := by
  unfold strongest
  dsimp only
  split
  · rename_i hlive
    rw [if_neg]
    intro h
    obtain ⟨rfl, hfree⟩ := rivalPair_eq_some.mp h
    exact hfree hlive
  · rename_i hfree
    by_cases hp : pair = frozenPair kr.1.1 kr.1.2.1
    · subst hp
      rw [if_pos (rivalPair_eq_some.mpr ⟨rfl, hfree⟩)]
      cases hget : d.get? (frozenPair kr.1.1 kr.1.2.1) with
      | none => simp [Dict.get?_set, better]
      | some old =>
          unfold better
          dsimp only
          split
          · simp [Dict.get?_set]
          · exact hget
    · rw [if_neg (fun h => hp (rivalPair_eq_some.mp h).1.symm)]
      -- whichever row is kept, it is kept under its own pair
      split
      · rw [Dict.get?_set, if_neg hp]
      · split
        · rw [Dict.get?_set, if_neg hp]
        · rfl

/-- **The strongest-wins loop**: what it keeps for a pair is the first of its strongest rivals. -/
theorem foldl_strongest_get? (live : List (Workload × Workload)) (pair : Workload × Workload) :
    ((rows.entries.filter fun kr => holdable cfg kr.1 kr.2).foldl (strongest live) ∅).get? pair
      = if pair ∈ live then none else firstMax (fun kr => kr.2.confidence) (rivals cfg rows pair) := by
  rw [Dict.get?_foldl_update (get?_strongest live), Dict.get?_empty, List.filter_filter, foldl_better]
  split
  · rename_i hlive
    rw [firstMax_eq_none_iff, List.filter_eq_nil_iff]
    intro kr _ hkr
    rw [Bool.and_eq_true, decide_eq_true_iff, rivalPair_eq_some] at hkr
    exact hkr.1.2 hlive
  · rename_i hfree
    unfold rivals
    refine congrArg _ (List.filter_congr fun kr _ => ?_)
    rw [Bool.decide_and, Bool.decide_eq_true]
    simp only [rivalPair_eq_some, hfree, not_false_eq_true, and_true]

/-- A row is held when its pair is not shown live and it is the first of its strongest rivals. -/
theorem mem_heldRows {live : List (Workload × Workload)} {kr : EdgeKey × EdgeRow} :
    kr ∈ heldRows cfg rows live ↔ frozenPair kr.1.1 kr.1.2.1 ∉ live ∧
      firstMax (fun kr => kr.2.confidence) (rivals cfg rows (frozenPair kr.1.1 kr.1.2.1)) = some kr := by
  unfold heldRows
  rw [Dict.mem_values_iff_get?]
  simp only [foldl_strongest_get?]
  constructor
  · rintro ⟨pair, hpair⟩
    split at hpair
    · exact absurd hpair (by simp)
    · rename_i hfree
      obtain ⟨-, rfl, -⟩ := mem_rivals.mp (firstMax_mem hpair)
      exact ⟨hfree, hpair⟩
  · rintro ⟨hfree, hmax⟩
    exact ⟨_, by rw [if_neg hfree]; exact hmax⟩

/-- A held edge joins the pods of its row and is marked as remembered. -/
theorem heldEdge_eq_some {wlPod : Dict Workload Pod} {now : ℚ} {kr : EdgeKey × EdgeRow} {s : ServedEdge}
    (h : heldEdge wlPod now kr = some s) : wlPod.get? kr.1.1 = some s.edge.src ∧
      wlPod.get? kr.1.2.1 = some s.edge.dst ∧ s.edge.r = roundAt 3 kr.2.r ∧
      (∃ mark, s.mark = some mark ∧ mark.source = .memory) ∧ s.signal = none := by
  unfold heldEdge at h
  split at h
  · rename_i src dst hsrc hdst
    obtain rfl := Option.some.inj h
    exact ⟨hsrc, hdst, rfl, ⟨_, rfl, rfl⟩, rfl⟩
  · exact absurd h (by simp)

/-- A row is held where both of its workloads have a pod. -/
theorem exists_heldEdge {wlPod : Dict Workload Pod} (kr : EdgeKey × EdgeRow) {src dst : Pod} (now : ℚ)
    (hsrc : wlPod.get? kr.1.1 = some src) (hdst : wlPod.get? kr.1.2.1 = some dst) :
    ∃ s, heldEdge wlPod now kr = some s ∧ s.edge.src = src ∧ s.edge.dst = dst ∧
      s.mark.map EdgeMark.confidence = some (roundAt 3 kr.2.confidence) := by
  unfold heldEdge
  rw [hsrc, hdst]
  exact ⟨_, rfl, rfl, rfl, rfl⟩

/-- The live edges, then those of the held rows. -/
theorem mem_render_iff {graph : CausalGraph} : s ∈ (render cfg rows graph vectors now).edges ↔
    (∃ e ∈ graph.edges, liveEdge cfg rows e = s) ∨
      ∃ kr ∈ heldRows cfg rows (livePairs graph.edges), heldEdge (workloadPod vectors) now kr = some s := by
  rw [← List.mem_map, ← List.mem_filterMap]
  exact List.mem_append

/-- A rendered live edge. -/
structure LiveServed (cfg : MemoryConfig) (rows : Dict EdgeKey EdgeRow) (edges : List Edge) (s : ServedEdge) :
    Prop where
  accepted : s.edge ∈ edges
  mark : s.mark = ((rows.get? (edgeKey cfg s.edge)).map fun row =>
    ⟨.live, roundAt 3 row.confidence, roundAt 3 row.confidence, row.state, row.hits, none, none⟩)

/-- A rendered held edge, of one row of the memory. -/
structure HeldServed (cfg : MemoryConfig) (rows : Dict EdgeKey EdgeRow) (vectors : Dict Pod Series)
    (s : ServedEdge) (key : EdgeKey) (row : EdgeRow) : Prop where
  stored : rows.get? key = some row
  signal : key.2.2 = cfg.signal
  holdable : row.visible = true ∨ 0 < row.baseConf
  src : stableWorkload s.edge.src = key.1 ∧ s.edge.src ∈ vectors.keys
  dst : stableWorkload s.edge.dst = key.2.1 ∧ s.edge.dst ∈ vectors.keys
  r : s.edge.r = roundAt 3 row.r
  source : ∃ mark, s.mark = some mark ∧ mark.source = .memory

/-- **Every rendered edge is live or held.** -/
theorem mem_render_edges {graph : CausalGraph} (h : s ∈ (render cfg rows graph vectors now).edges) :
    LiveServed cfg rows graph.edges s ∨ ∃ key row, HeldServed cfg rows vectors s key row := by
  rcases mem_render_iff.mp h with ⟨e, he, rfl⟩ | ⟨⟨key, row⟩, hkr, hheld⟩
  · exact Or.inl ⟨he, rfl⟩
  · -- a held row is one of its rivals
    obtain ⟨hrow, -, hhold⟩ := mem_rivals.mp (firstMax_mem (mem_heldRows.mp hkr).2)
    have hhold' : key.2.2 = cfg.signal ∧ (row.visible = true ∨ 0 < row.baseConf) := of_decide_eq_true hhold
    obtain ⟨hsrc, hdst, hr, hmark, -⟩ := heldEdge_eq_some hheld
    exact Or.inr ⟨key, row, hrow, hhold'.1, hhold'.2, workloadPod_spec hsrc, workloadPod_spec hdst, hr, hmark⟩

/-- Rendered edges carry no signal yet. -/
theorem render_untagged {graph : CausalGraph} (h : s ∈ (render cfg rows graph vectors now).edges) :
    s.signal = none := by
  rcases mem_render_iff.mp h with ⟨e, -, rfl⟩ | ⟨kr, -, hheld⟩
  · rfl
  · obtain ⟨-, -, -, -, hsignal⟩ := heldEdge_eq_some hheld
    exact hsignal

/-- A served edge of `observe` is one of its rendering. -/
theorem mem_observe_edges {sha1 : CaseKey → CaseId} {m : Memory} {graph : CausalGraph} {w : Option Witness}
    {ts : ℚ} (h : s ∈ (observe cfg sha1 m graph vectors w ts now).2.edges) :
    s ∈ (render cfg (observe cfg sha1 m graph vectors w ts now).1.edgeMemory graph vectors now).edges := h

end EdgeCausal
