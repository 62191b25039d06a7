import EdgeCausal.Correctness.ForwardImpact
import EdgeCausal.Graph.FirstWalk

/-!
# `Correctness.BlastWalk` — every blast-radius entry is one real path

The blast loop is the breadth-first search for walks whose impact is not below the cut
(`blastLoop_eq_search`): impact and ETA of an entry are those of the walk the search found, so they belong
together, and that walk is a simple path of the graph.
-/

namespace EdgeCausal

open Lib

variable {g : CGraph} {root : Pod}

/-! ## Walks with impact and ETA -/

/-- A leg of a walk: the pod it leads to, the weight of the edge and its lag. -/
abbrev Leg := Pod × ℚ × ℕ

def legOf (o : Pod × EdgeData) : Leg := (o.1, o.2.weight, o.2.lagS)

/-- The legs that leave a pod. -/
def legs (g : CGraph) (n : Pod) : List Leg := (g.outEdges n).map legOf

/-- What is left of an impact of 1 at the end of a walk. -/
def walkImpact (walk : List Leg) : ℚ := (walk.map fun o => o.2.1 * decay).prod

/-- The lags along a walk. -/
def walkEta (walk : List Leg) : ℕ := (walk.map fun o => o.2.2).sum

/-- The walk is not below the cut. -/
abbrev Lives (walk : List Leg) : Prop := cut ≤ walkImpact walk

@[simp] theorem walkImpact_nil : walkImpact [] = 1 := rfl
@[simp] theorem walkEta_nil : walkEta [] = 0 := rfl

@[simp] theorem walkImpact_concat (walk : List Leg) (o : Leg) :
    walkImpact (walk ++ [o]) = walkImpact walk * o.2.1 * decay := by
  simp [walkImpact, mul_assoc]

@[simp] theorem walkEta_concat (walk : List Leg) (o : Leg) : walkEta (walk ++ [o]) = walkEta walk + o.2.2 := by
  simp [walkEta]

/-- The entry a walk is listed as. -/
def walkEntry (root : Pod) (walk : List Leg) : BlastEntry :=
  ⟨walkEnd root walk, roundAt 3 (walkImpact walk), walkEta walk⟩

/-! ## The loop as a search -/

/-- The state of the blast loop once the walks `met` have been found and `queue` of them is yet to be
    extended. -/
def blastState (root : Pod) (met queue : List (List Leg)) : BlastState :=
  ⟨met.map (walkEnd root), met.tail.map (walkEntry root),
    queue.map fun walk => (walkEnd root walk, walkImpact walk, walkEta walk)⟩

/-- Visiting the successors of a walk's end is meeting the walks that extend it. -/
theorem foldl_blastStep (walk : List Leg) (os : List (Pod × EdgeData)) {met : List (List Leg)}
    (hne : met ≠ []) (queue : List (List Leg)) :
    ∃ new, (((os.map legOf).map fun o => walk ++ [o]).filter fun w => Lives w).foldl (meet (walkEnd root)) met
        = met ++ new ∧
      os.foldl (blastStep (walkImpact walk) (walkEta walk)) (blastState root met queue)
        = blastState root (met ++ new) (queue ++ new) := by
  induction os generalizing met queue with
  | nil => exact ⟨[], by simp, by simp⟩
  | cons o os ih =>
      have himpact : walkImpact (walk ++ [legOf o]) = walkImpact walk * o.2.weight * decay :=
        walkImpact_concat ..
      by_cases hlives : Lives (walk ++ [legOf o])
      · have hcut : ¬ walkImpact walk * o.2.weight * decay < cut := by
          rw [← himpact]
          exact not_lt.mpr hlives
        rw [List.map_cons, List.map_cons, List.filter_cons_of_pos (by simpa using hlives), List.foldl_cons,
          List.foldl_cons]
        by_cases hseen : o.1 ∈ met.map (walkEnd root)
        · -- a pod seen before is left alone by both
          have hmeet : meet (walkEnd root) met (walk ++ [legOf o]) = met :=
            if_pos (by simpa [legOf] using hseen)
          have hstep : blastStep (walkImpact walk) (walkEta walk) (blastState root met queue) o
              = blastState root met queue := if_pos (Or.inl hseen)
          rw [hmeet, hstep]
          exact ih hne queue
        · have hmeet : meet (walkEnd root) met (walk ++ [legOf o]) = met ++ [walk ++ [legOf o]] :=
            if_neg (by simpa [legOf] using hseen)
          have hstep : blastStep (walkImpact walk) (walkEta walk) (blastState root met queue) o
              = blastState root (met ++ [walk ++ [legOf o]]) (queue ++ [walk ++ [legOf o]]) := by
            have hnew : ¬ (o.1 ∈ (blastState root met queue).seen ∨
              walkImpact walk * o.2.weight * decay < cut) :=
              not_or.mpr ⟨hseen, hcut⟩
            unfold blastStep
            dsimp only
            rw [if_neg hnew]
            simp [blastState, walkEntry, List.tail_append_of_ne_nil hne, legOf]
          have hlater : met ++ [walk ++ [legOf o]] ≠ [] := by simp
          obtain ⟨new, hfold, hstate⟩ := ih hlater (queue ++ [walk ++ [legOf o]])
          refine ⟨(walk ++ [legOf o]) :: new, ?_, ?_⟩
          · rw [hmeet, hfold]
            simp
          · rw [hstep, hstate]
            simp
      · have hcut : walkImpact walk * o.2.weight * decay < cut := by
          rw [← himpact]
          exact not_le.mp hlives
        have hstep : blastStep (walkImpact walk) (walkEta walk) (blastState root met queue) o
            = blastState root met queue := if_pos (Or.inr hcut)
        rw [List.map_cons, List.map_cons, List.filter_cons_of_neg (by simpa using hlives),
          List.foldl_cons, hstep]
        exact ih hne queue

/-- One turn of `while frontier`. -/
def blastTurn (g : CGraph) (s : BlastState) : BlastState :=
  match s.frontier with
  | [] => s
  | (node, w, eta) :: rest => (g.outEdges node).foldl (blastStep w eta) { s with frontier := rest }

theorem blastLoop_succ (g : CGraph) (n : ℕ) (s : BlastState) :
    blastLoop g (n + 1) s = blastLoop g n (blastTurn g s) := by
  unfold blastTurn
  cases hs : s.frontier with
  | nil =>
      have hstop : ∀ n, blastLoop g n s = s := by
        intro n
        cases n <;> simp [blastLoop, hs]
      rw [hstop, hstop]
  | cons entry rest =>
      obtain ⟨node, w, eta⟩ := entry
      simp [blastLoop, hs]

/-- How the search explores a walk. -/
abbrev exploreWalk (g : CGraph) (root : Pod) : List Leg → List (List Leg) → List (List Leg) × List (List Leg) :=
  explore (walkEnd root) (ways (legs g) Lives root)

/-- A turn of the loop is a turn of the search. -/
theorem blastTurn_eq (g : CGraph) (root : Pod) {met : List (List Leg)} (hne : met ≠ [])
    (queue : List (List Leg)) :
    blastTurn g (blastState root met queue)
      = blastState root (drainStep (exploreWalk g root) (queue, met)).2
          (drainStep (exploreWalk g root) (queue, met)).1 := by
  cases queue with
  | nil => rfl
  | cons walk queue =>
      obtain ⟨new, hfold, hstate⟩ := foldl_blastStep walk (g.outEdges (walkEnd root walk)) hne queue
      have hexplore : exploreWalk g root walk met = (met ++ new, new) := by
        unfold exploreWalk explore ways legs
        rw [hfold]
        dsimp only
        rw [List.drop_left]
      simp only [drainStep, hexplore]
      exact hstate

theorem drainStep_ne_nil (g : CGraph) (root : Pod) {met : List (List Leg)} (hne : met ≠ [])
    (queue : List (List Leg)) : (drainStep (exploreWalk g root) (queue, met)).2 ≠ [] := by
  cases queue with
  | nil => exact hne
  | cons walk queue =>
      obtain ⟨new, hnew⟩ := prefix_foldl_meet (walkEnd root) met (ways (legs g) Lives root walk)
      show (ways (legs g) Lives root walk).foldl (meet (walkEnd root)) met ≠ []
      rw [← hnew]
      simp [hne]

/-- The loop follows the search. -/
theorem blastLoop_eq_drain (g : CGraph) (root : Pod) (n : ℕ) {met : List (List Leg)} (hne : met ≠ [])
    (queue : List (List Leg)) :
    (blastLoop g n (blastState root met queue)).out
      = (drain (exploreWalk g root) n queue met).tail.map (walkEntry root) := by
  induction n generalizing met queue with
  | zero => rfl
  | succ n ih =>
      rw [blastLoop_succ, blastTurn_eq g root hne, ih (drainStep_ne_nil g root hne queue)]
      cases queue with
      | nil =>
          rw [drain_nil]
          show (drain (exploreWalk g root) n [] met).tail.map _ = _
          rw [drain_nil]
      | cons walk queue => rfl

theorem iterate_blastTurn (g : CGraph) (root : Pod) (k : ℕ) {met : List (List Leg)} (hne : met ≠ [])
    (queue : List (List Leg)) :
    (blastTurn g)^[k] (blastState root met queue)
      = blastState root ((drainStep (exploreWalk g root))^[k] (queue, met)).2
          ((drainStep (exploreWalk g root))^[k] (queue, met)).1 := by
  induction k generalizing met queue with
  | zero => rfl
  | succ k ih =>
      rw [Function.iterate_succ_apply, Function.iterate_succ_apply, blastTurn_eq g root hne,
        ih (drainStep_ne_nil g root hne queue)]

/-- The walks the blast radius is made of. -/
def blastWalks (g : CGraph) (root : Pod) : List (List Leg) :=
  walkSearch (legs g) Lives (g.nodes.length + 1) root

theorem blastRadius_eq (hroot : root ∈ g.nodes) :
    blastRadius g root = sortOn (fun b => -b.impact) ((blastWalks g root).tail.map (walkEntry root)) := by
  unfold blastRadius
  rw [if_pos hroot]
  congr 1
  have hne : ([[]] : List (List Leg)) ≠ [] := by simp
  exact blastLoop_eq_drain g root (g.nodes.length + 1) hne [[]]

theorem legs_closed (g : CGraph) : ∀ v, ∀ o ∈ legs g v, o.1 ∈ g.nodes := by
  intro v o ho
  obtain ⟨out, hout, rfl⟩ := List.mem_map.mp ho
  exact (g.closed (v, out.1) (Dict.mem_keys_iff_get?.mpr ⟨out.2, DiGraph.mem_outEdges.mp hout⟩)).2

theorem blastWalks_searched (hroot : root ∈ g.nodes) : WalksSearched (legs g) Lives root (blastWalks g root) :=
  walksSearched_walkSearch hroot (legs_closed g) (Nat.le_succ _)

/-! ## The walks found -/

/-- The root's own walk comes first; the others leave it. -/
theorem blastWalks_split (hroot : root ∈ g.nodes) : blastWalks g root = [] :: (blastWalks g root).tail := by
  obtain ⟨rest, hrest⟩ := Searched.starts (blastWalks_searched hroot)
  rw [← hrest]
  rfl

/-- The root and the pods listed are each found once. -/
theorem blastWalks_nodup (hroot : root ∈ g.nodes) :
    (root :: (blastWalks g root).tail.map (walkEnd root)).Nodup := by
  have hnodup := Searched.nodup (blastWalks_searched hroot)
  rw [List.append_nil, blastWalks_split hroot, List.map_cons] at hnodup
  exact hnodup

theorem ne_nil_of_mem_tail (hroot : root ∈ g.nodes) {walk : List Leg} (h : walk ∈ (blastWalks g root).tail) :
    walk ≠ [] := by
  rintro rfl
  exact (List.nodup_cons.mp (blastWalks_nodup hroot)).1 (List.mem_map_of_mem h)

theorem mem_blastRadius (hroot : root ∈ g.nodes) {b : BlastEntry} :
    b ∈ blastRadius g root ↔ ∃ walk ∈ blastWalks g root, walk ≠ [] ∧ walkEntry root walk = b := by
  rw [blastRadius_eq hroot, mem_sortOn, List.mem_map]
  constructor
  · rintro ⟨walk, hwalk, rfl⟩
    exact ⟨walk, List.mem_of_mem_tail hwalk, ne_nil_of_mem_tail hroot hwalk, rfl⟩
  · rintro ⟨walk, hwalk, hne, rfl⟩
    rw [blastWalks_split hroot] at hwalk
    exact ⟨walk, (List.mem_cons.mp hwalk).resolve_left hne, rfl⟩

/-- Where there is no root there is nothing to list. -/
theorem blastRadius_of_not_mem (hroot : root ∉ g.nodes) : blastRadius g root = [] := if_neg hroot

/-! ## The result -/

/-- The entry is the end of a simple path of the graph that stays above the cut, with the impact and the ETA of
    that path. -/
structure Witnessed (g : CGraph) (root : Pod) (b : BlastEntry) (walk : List Leg) : Prop where
  survivor : Survivor (legs g) Lives root walk
  simple : (root :: walk.map Prod.fst).Nodup
  nonempty : walk ≠ []
  ends : walkEnd root walk = b.pod
  impact : b.impact = roundAt 3 (walkImpact walk)
  eta : b.etaS = walkEta walk

theorem exists_witnessed {b : BlastEntry} (h : b ∈ blastRadius g root) : ∃ walk, Witnessed g root b walk := by
  by_cases hroot : root ∈ g.nodes
  · have hsearched := blastWalks_searched hroot
    obtain ⟨walk, hwalk, hne, rfl⟩ := (mem_blastRadius hroot).mp h
    exact ⟨walk, hsearched.survivor hwalk, hsearched.simple hwalk, hne, rfl, rfl, rfl⟩
  · rw [blastRadius_of_not_mem hroot] at h
    exact absurd h List.not_mem_nil

/-- The pods listed are distinct and none is the root. -/
theorem blastRadius_pods (g : CGraph) (root : Pod) :
    ((blastRadius g root).map BlastEntry.pod).Nodup ∧ root ∉ (blastRadius g root).map BlastEntry.pod := by
  by_cases hroot : root ∈ g.nodes
  · have hperm : ((blastRadius g root).map BlastEntry.pod).Perm
      ((blastWalks g root).tail.map (walkEnd root)) := by
      rw [blastRadius_eq hroot]
      have hmap : (blastWalks g root).tail.map (walkEnd root)
          = ((blastWalks g root).tail.map (walkEntry root)).map BlastEntry.pod := by
        rw [List.map_map]
        rfl
      rw [hmap]
      exact (sortOn_perm _ _).map _
    obtain ⟨hnew, hnodup⟩ := List.nodup_cons.mp (blastWalks_nodup hroot)
    exact ⟨hperm.nodup_iff.mpr hnodup, fun h => hnew (hperm.mem_iff.mp h)⟩
  · rw [blastRadius_of_not_mem hroot]
    simp

theorem blastRadius_sorted (g : CGraph) (root : Pod) :
    (blastRadius g root).Pairwise fun b b' => b'.impact ≤ b.impact := by
  unfold blastRadius
  split
  · refine (sortOn_pairwise _ _).imp ?_
    intro b b' h
    exact neg_le_neg_iff.mp h
  · exact List.Pairwise.nil

/-- The loop started at a root of the graph empties its frontier, having found what is listed. -/
theorem blastTurn_terminates (hroot : root ∈ g.nodes) :
    ∃ k, ((blastTurn g)^[k] ⟨[root], [], [(root, 1, 0)]⟩).frontier = [] ∧
      blastRadius g root
        = sortOn (fun b => -b.impact) ((blastTurn g)^[k] ⟨[root], [], [(root, 1, 0)]⟩).out := by
  have hterm : ∃ k, (drainStep (exploreWalk g root))^[k] ([[]], [[]]) = ([], blastWalks g root) :=
    walkSearch_terminates hroot (legs_closed g) (Nat.le_succ g.nodes.length)
  obtain ⟨k, hk⟩ := hterm
  have hne : ([[]] : List (List Leg)) ≠ [] := by simp
  have hturns := iterate_blastTurn g root k hne [[]]
  refine ⟨k, ?_⟩
  rw [blastRadius_eq hroot]
  show ((blastTurn g)^[k] (blastState root [[]] [[]])).frontier = [] ∧
    _ = sortOn _ ((blastTurn g)^[k] (blastState root [[]] [[]])).out
  rw [hturns, hk]
  exact ⟨rfl, rfl⟩

/-- **Every blast-radius entry is one real path.** On any graph, cycles included, the loop comes to an end; it
    lists each pod at most once and never the root, by falling impact; and each entry has the impact and the ETA
    of one simple path from the root to its pod, no prefix of which is below the cut. -/
theorem blastRadius_witnessed (g : CGraph) (root : Pod) :
    (root ∈ g.nodes → ∃ k, ((blastTurn g)^[k] ⟨[root], [], [(root, 1, 0)]⟩).frontier = [] ∧
      blastRadius g root
        = sortOn (fun b => -b.impact) ((blastTurn g)^[k] ⟨[root], [], [(root, 1, 0)]⟩).out) ∧
    ((blastRadius g root).map BlastEntry.pod).Nodup ∧
    root ∉ (blastRadius g root).map BlastEntry.pod ∧
    ((blastRadius g root).Pairwise fun b b' => b'.impact ≤ b.impact) ∧
    ∀ b ∈ blastRadius g root, ∃ walk, Witnessed g root b walk := by
  refine ⟨blastTurn_terminates, (blastRadius_pods g root).1, (blastRadius_pods g root).2,
    blastRadius_sorted g root, ?_⟩
  intro b hb
  exact exists_witnessed hb

end EdgeCausal
