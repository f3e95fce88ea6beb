/-
The ready frontier.

The index counts, for each node, the predecessors that have not been released.  A node
is in the ready queue, or has been started, exactly when none is left.  Both hold in
front of the loop, and `release_dependents` keeps them for one more released node.
-/
import AeroFtp.TransferDag.Executor

namespace AeroFtp.Dag

open List

/-! ### Unique predecessors -/

variable {l : List Nat}

theorem mem_dedupNeighbours {d : Nat} : d ∈ dedupNeighbours l ↔ d ∈ l := by
  fun_induction dedupNeighbours l with
  | case1 b rest ih => rw [ih]; simp
  | case2 a b rest hne ih => simp only [mem_cons, ih]
  | case3 l => rfl

theorem nodup_dedupNeighbours (h : l.Pairwise (· ≤ ·)) : (dedupNeighbours l).Nodup := by
  fun_induction dedupNeighbours l with
  | case1 b rest ih => exact ih h.tail
  | case2 a b rest hne ih =>
    rw [nodup_cons, mem_dedupNeighbours]
    refine ⟨?_, ih h.tail⟩
    intro hmem
    obtain ⟨hh, ht⟩ := pairwise_cons.mp h
    have hab := hh b (mem_cons_self ..)
    -- Everything behind `b` is at least `b`, so `a` is not among it.
    have hba : b ≤ a := by
      rcases mem_cons.mp hmem with rfl | hr
      · exact Nat.le_refl _
      · exact (pairwise_cons.mp ht).1 a hr
    omega
  | case3 l hl =>
    rcases l with _ | ⟨a, _ | ⟨b, rest⟩⟩
    · simp
    · simp
    · exact absurd rfl (hl a b rest)

theorem mem_uniquePreds {d : Nat} : d ∈ uniquePreds l ↔ d ∈ l := by
  rw [uniquePreds, mem_dedupNeighbours, mem_insertionSort]

theorem nodup_uniquePreds (l : List Nat) : (uniquePreds l).Nodup :=
  nodup_dedupNeighbours (pairwise_insertionSort (· ≤ ·) l)

/-! ### The index -/

namespace TransferDag

variable (dag : TransferDag)

theorem id_of_getElem? {v : Nat} {node : TransferNode} (h : dag.nodes[v]? = some node) :
    node.id = v ∧ v < dag.nodes.length := by
  obtain ⟨hv, rfl⟩ := List.getElem?_eq_some_iff.mp h
  have hid : (dag.nodes.map TransferNode.id)[v]? = some v := by
    rw [dag.ids, getElem?_range hv]
  rw [getElem?_map, h] at hid
  exact ⟨Option.some.inj hid, hv⟩

/-- The nodes that wait for `d`. -/
def children (d : Nat) : List Nat :=
  (dag.nodes.filter fun node => d ∈ node.dependsOn).map TransferNode.id

theorem nodup_children (d : Nat) : (dag.children d).Nodup := by
  have hsub : (dag.children d).Sublist (range dag.nodes.length) := by
    rw [← dag.ids]
    exact (filter_sublist ..).map _
  exact nodup_range.sublist hsub

theorem mem_children {v d : Nat} :
    v ∈ dag.children d ↔ v < dag.nodes.length ∧ d ∈ dag.dependsOn v := by
  unfold children dependsOn
  rw [mem_map]
  constructor
  · rintro ⟨node, hn, rfl⟩
    obtain ⟨hmem, hd⟩ := mem_filter.mp hn
    obtain ⟨i, hi, hget⟩ := getElem_of_mem hmem
    have hs : dag.nodes[i]? = some node := by rw [getElem?_eq_getElem hi, hget]
    obtain ⟨hid, hlt⟩ := dag.id_of_getElem? hs
    rw [hid, hs]
    exact ⟨hlt, by simpa using hd⟩
  · rintro ⟨hv, hd⟩
    rw [getElem?_eq_getElem hv] at hd
    refine ⟨dag.nodes[v], mem_filter.mpr ⟨getElem_mem hv, by simpa using hd⟩, ?_⟩
    exact (dag.id_of_getElem? (getElem?_eq_getElem hv)).1

end TransferDag

theorem getD_foldl_modify (n id : Nat) (preds : List Nat) (hn : preds.Nodup)
    (dependents : List (List Nat)) (hlen : dependents.length = n) (d : Nat) :
    (preds.foldl (fun dependents dep => if dep < n then dependents.modify dep (· ++ [id]) else
        dependents) dependents).length = n ∧
    (d < n → (preds.foldl (fun dependents dep =>
        if dep < n then dependents.modify dep (· ++ [id]) else dependents) dependents).getD d []
      = dependents.getD d [] ++ if d ∈ preds then [id] else []) := by
  induction preds generalizing dependents with
  | nil => simp [hlen]
  | cons p preds ih =>
    obtain ⟨hp, hn⟩ := nodup_cons.mp hn
    rw [foldl_cons]
    by_cases hpn : p < n
    · have hlen' : (dependents.modify p (· ++ [id])).length = n := by rw [length_modify, hlen]
      obtain ⟨hl, hget⟩ := ih hn (dependents.modify p (· ++ [id])) hlen'
      rw [if_pos hpn]
      refine ⟨hl, fun hd => ?_⟩
      rw [hget hd, getD_eq_getElem?_getD, getD_eq_getElem?_getD, getElem?_modify]
      by_cases hdp : p = d
      · subst hdp
        rw [getElem?_eq_getElem (by omega)]
        simp [hp]
      · simp [hdp, Ne.symm hdp]
    · obtain ⟨hl, hget⟩ := ih hn dependents hlen
      rw [if_neg hpn]
      refine ⟨hl, fun hd => ?_⟩
      have hdp : d ≠ p := by omega
      rw [hget hd]
      simp [hdp]

theorem foldl_addNode (n : Nat) (nodes : List TransferNode) (index : DepIndex)
    (hlen : index.dependents.length = n) : (nodes.foldl (DepIndex.addNode n) index).remainingDeps
        = index.remainingDeps ++ nodes.map (fun node => (uniquePreds node.dependsOn).length) ∧
    (nodes.foldl (DepIndex.addNode n) index).dependents.length = n ∧
    ∀ d < n, (nodes.foldl (DepIndex.addNode n) index).dependents.getD d []
      = index.dependents.getD d [] ++ (nodes.filter fun node => d ∈ node.dependsOn).map
        TransferNode.id := by
  induction nodes generalizing index with
  | nil => simp [hlen]
  | cons node nodes ih =>
    have hmod := getD_foldl_modify n node.id _
      (nodup_uniquePreds node.dependsOn) index.dependents hlen
    obtain ⟨hrem, hl, hget⟩ := ih (index.addNode n node) (hmod 0).1
    rw [foldl_cons]
    refine ⟨?_, hl, ?_⟩
    · rw [hrem]
      simp [DepIndex.addNode]
    · intro d hd
      rw [hget d hd]
      have hn : (index.addNode n node).dependents.getD d []
          = index.dependents.getD d [] ++ if d ∈ uniquePreds node.dependsOn then
            [node.id] else [] :=
        (hmod d).2 hd
      simp only [hn, mem_uniquePreds]
      by_cases hmem : d ∈ node.dependsOn
      · simp [hmem]
      · simp [hmem]

namespace TransferDag

variable (dag : TransferDag)

theorem index_spec :
    dag.index.remainingDeps = dag.nodes.map (fun node => (uniquePreds node.dependsOn).length) ∧
      dag.index.dependents.length = dag.nodes.length ∧
      ∀ d < dag.nodes.length, dag.index.dependents.getD d [] = dag.children d := by
  obtain ⟨hrem, hl, hget⟩ :=
    foldl_addNode dag.nodes.length dag.nodes ⟨[], replicate dag.nodes.length []⟩ (by simp)
  refine ⟨hrem, hl, fun d hd => (hget d hd).trans ?_⟩
  rw [getD_eq_getElem?_getD, getElem?_replicate, if_pos hd]
  rfl

theorem index_remainingDeps {v : Nat} (hv : v < dag.nodes.length) :
    dag.index.remainingDeps.getD v 0 = (uniquePreds (dag.dependsOn v)).length := by
  unfold dependsOn
  rw [dag.index_spec.1, getD_eq_getElem?_getD, getElem?_map, getElem?_eq_getElem hv]
  rfl

end TransferDag

/-! ### Releasing -/

/-- Distinct children that all still wait: each is counted down by one, and those that
waited for this node alone are enqueued. -/
theorem releaseChildren_spec (children : List Nat) (hn : children.Nodup)
    (remaining ready : List Nat)
    (hwait : ∀ v ∈ children, v < remaining.length ∧ 0 < remaining.getD v 0) :
    (releaseChildren children (remaining, ready)).1.length = remaining.length ∧
    (∀ v, (releaseChildren children (remaining, ready)).1.getD v 0
      = remaining.getD v 0 - if v ∈ children then 1 else 0) ∧
    (releaseChildren children (remaining, ready)).2
      = ready ++ children.filter fun v => remaining.getD v 0 = 1 := by
  induction children generalizing remaining ready with
  | nil => simp [releaseChildren]
  | cons c children ih =>
    obtain ⟨hc, hn⟩ := nodup_cons.mp hn
    obtain ⟨hlt, hpos⟩ := hwait c (mem_cons_self ..)
    have hset : ∀ v, (remaining.set c (remaining.getD c 0 - 1)).getD v 0
        = if c = v then remaining.getD c 0 - 1 else remaining.getD v 0 := by
      intro v
      by_cases hcv : c = v
      · subst hcv
        simp [hlt]
      · simp [hcv]
    have ho : ∀ v ∈ children, c ≠ v := by
      rintro v hv rfl
      exact hc hv
    obtain ⟨hl, hget, hr⟩ := ih hn (remaining.set c (remaining.getD c 0 - 1))
      (if remaining.getD c 0 - 1 = 0 then ready ++ [c] else ready) (by
        intro v hv
        have hw := hwait v (mem_cons_of_mem _ hv)
        rw [hset, if_neg (ho v hv), length_set]
        exact hw)
    have hstep : releaseChildren (c :: children) (remaining, ready)
        = releaseChildren children (remaining.set c (remaining.getD c 0 - 1),
            if remaining.getD c 0 - 1 = 0 then ready ++ [c] else ready) := by
      rw [releaseChildren, if_neg (by omega)]
      rw [if_neg (by omega)]
    rw [hstep]
    refine ⟨by rw [hl, length_set], ?_, ?_⟩
    · intro v
      rw [hget, hset]
      by_cases hcv : c = v
      · subst hcv
        simp [hc]
      · simp [hcv, Ne.symm hcv]
    · have hf : children.filter (fun v => (remaining.set c (remaining.getD c 0 - 1)).getD v 0 = 1)
          = children.filter fun v => remaining.getD v 0 = 1 := by
        apply filter_congr
        intro v hv
        rw [hset, if_neg (ho v hv)]
      rw [hr, hf, filter_cons]
      by_cases h1 : remaining.getD c 0 = 1
      · simp only [h1, decide_true, if_true, append_assoc, singleton_append]
      · have h0 : ¬ remaining.getD c 0 - 1 = 0 := by omega
        simp only [h1, h0, decide_false, if_false, Bool.false_eq_true]

/-! ### The frontier -/

/-- What is ready or has been started waits for nothing, and is so once. -/
structure Frontier (dag : TransferDag) (ready started released : List Nat) : Prop where
  nodup : (ready ++ started).Nodup
  satisfied : ∀ v ∈ ready ++ started, v < dag.nodes.length ∧ ∀ d ∈ dag.dependsOn v, d ∈ released

/-- The counts are those of the predecessors not yet released, and nothing that waits
for none of them is forgotten. -/
structure Counted (dag : TransferDag) (remaining ready started released : List Nat) : Prop where
  length : remaining.length = dag.nodes.length
  count : ∀ v < dag.nodes.length,
    remaining.getD v 0 = ((uniquePreds (dag.dependsOn v)).filter fun d => d ∉ released).length
  all : ∀ v < dag.nodes.length, remaining.getD v 0 = 0 → v ∈ ready ++ started

theorem Counted.zero_iff {dag : TransferDag} {remaining ready started released : List Nat}
    (h : Counted dag remaining ready started released) {v : Nat} (hv : v < dag.nodes.length) :
    remaining.getD v 0 = 0 ↔ ∀ d ∈ dag.dependsOn v, d ∈ released := by
  rw [h.count v hv, length_eq_zero_iff, filter_eq_nil_iff]
  constructor
  · intro hall d hd
    simpa using hall d (mem_uniquePreds.mpr hd)
  · intro hall d hd
    simpa using hall d (mem_uniquePreds.mp hd)

variable {dag : TransferDag} {remaining ready started released : List Nat}

theorem frontier_start :
    Frontier dag ((range dag.index.remainingDeps.length).filter
        fun id => dag.index.remainingDeps.getD id 0 = 0) [] [] ∧
      Counted dag dag.index.remainingDeps ((range dag.index.remainingDeps.length).filter
        fun id => dag.index.remainingDeps.getD id 0 = 0) [] [] := by
  have hlen : dag.index.remainingDeps.length
      = dag.nodes.length := by rw [dag.index_spec.1, length_map]
  refine ⟨⟨?_, ?_⟩, ⟨hlen, ?_, ?_⟩⟩
  · rw [append_nil]
    exact nodup_range.filter _
  · intro v hv
    rw [append_nil, mem_filter, mem_range, hlen] at hv
    obtain ⟨hv, hz⟩ := hv
    refine ⟨hv, fun d hd => ?_⟩
    simp only [decide_eq_true_eq] at hz
    rw [dag.index_remainingDeps hv, length_eq_zero_iff] at hz
    have hmem := mem_uniquePreds.mpr hd
    rw [hz] at hmem
    cases hmem
  · intro v hv
    rw [dag.index_remainingDeps hv]
    simp
  · intro v hv hz
    rw [append_nil, mem_filter, mem_range, hlen]
    exact ⟨hv, by simpa using hz⟩

theorem length_filter_released {preds : List Nat} (hnd : preds.Nodup) {id : Nat}
    (hid : id ∉ released) :
    (preds.filter fun d => d ∉ released ++ [id]).length
      = (preds.filter fun d => d ∉ released).length - if id ∈ preds then 1 else 0 := by
  have hs : (preds.filter fun d => d ∉ released ++ [id])
      = (preds.filter fun d => d ∉ released).filter fun d => d ≠ id := by
    rw [filter_filter]
    apply filter_congr
    intro d _
    simp [and_comm]
  rw [hs]
  by_cases hmem : id ∈ preds
  · have hin : id ∈ preds.filter fun d => d ∉ released :=
      mem_filter.mpr ⟨hmem, by simpa using hid⟩
    rw [if_pos hmem, ← length_erase_of_mem hin, (hnd.filter _).erase_eq_filter]
    congr 1
    apply filter_congr
    intro d _
    by_cases hd : d = id <;> simp [hd]
  · rw [if_neg hmem, Nat.sub_zero, filter_eq_self.mpr]
    intro d hd
    have hne : d ≠ id := by
      rintro rfl
      exact hmem (mem_filter.mp hd).1
    simpa using hne

/-- **Releasing a node keeps the frontier**, with that node among the released ones. -/
theorem frontier_release (hf : Frontier dag ready started released)
    (hc : Counted dag remaining ready started released) {id : Nat} (hid : id ∉ released)
    (hlt : id < dag.nodes.length) :
    Frontier dag (releaseDependents id dag.index.dependents remaining ready).2 started
        (released ++ [id]) ∧ Counted dag
          (releaseDependents id dag.index.dependents remaining ready).1
        (releaseDependents id dag.index.dependents remaining ready).2 started
          (released ++ [id]) := by
  have hrel : releaseDependents id dag.index.dependents remaining ready
      = releaseChildren (dag.children id) (remaining, ready) := by
    obtain ⟨-, hl, hget⟩ := dag.index_spec
    rw [releaseDependents, if_neg (by rw [hl]; omega), hget id hlt]
  have hw : ∀ v ∈ dag.children id, v < remaining.length ∧ 0 < remaining.getD v 0 := by
    intro v hv
    obtain ⟨hv, hdep⟩ := dag.mem_children.mp hv
    rw [hc.length]
    refine ⟨hv, Nat.pos_of_ne_zero fun hz => ?_⟩
    exact hid ((hc.zero_iff hv).mp hz id hdep)
  obtain ⟨hl, hget, hready⟩ := releaseChildren_spec _ (dag.nodup_children id) remaining ready hw
  rw [hrel, hready]
  -- The new count of a node is the old one, less the released predecessor.
  have hcount : ∀ v < dag.nodes.length,
      (releaseChildren (dag.children id) (remaining, ready)).1.getD v 0
      = ((uniquePreds (dag.dependsOn v)).filter fun d => d ∉ released ++ [id]).length := by
    intro v hv
    rw [hget, length_filter_released (nodup_uniquePreds _) hid, hc.count v hv]
    simp only [dag.mem_children, hv, true_and, mem_uniquePreds]
  have hs : ∀ v ∈ (ready ++ (dag.children id).filter fun v => remaining.getD v 0 = 1) ++ started,
      v < dag.nodes.length ∧ ∀ d ∈ dag.dependsOn v, d ∈ released ++ [id] := by
    intro v hv
    have hcases : v ∈ ready ++ started ∨ (v ∈ dag.children id ∧ remaining.getD v 0 = 1) := by
      simp only [mem_append, mem_filter, decide_eq_true_eq] at hv ⊢
      tauto
    rcases hcases with hold | ⟨hchild, hone⟩
    · obtain ⟨hv, hdeps⟩ := hf.satisfied v hold
      exact ⟨hv, fun d hd => mem_append_left _ (hdeps d hd)⟩
    · obtain ⟨hv, hdep⟩ := dag.mem_children.mp hchild
      refine ⟨hv, fun d hd => ?_⟩
      have hz :
          ((uniquePreds (dag.dependsOn v)).filter fun d => d ∉ released ++ [id]).length = 0 := by
        rw [← hcount v hv, hget, hone, if_pos hchild]
      rw [length_eq_zero_iff, filter_eq_nil_iff] at hz
      have hmem := hz d (mem_uniquePreds.mpr hd)
      by_contra hnot
      exact hmem (by simpa using hnot)
  refine ⟨⟨?_, hs⟩, ⟨hl.trans hc.length, hcount, ?_⟩⟩
  · -- A child has just been released, so it was neither ready nor started before.
    have hfresh : ∀ v ∈ dag.children id, v ∉ ready ++ started := by
      intro v hv hold
      exact hid ((hf.satisfied v hold).2 id (dag.mem_children.mp hv).2)
    have hperm :
        ((ready ++ (dag.children id).filter fun v => remaining.getD v 0 = 1) ++ started).Perm
        ((ready ++ started) ++ (dag.children id).filter fun v => remaining.getD v 0 = 1) := by
      rw [append_assoc, append_assoc]
      exact perm_append_comm.append_left ready
    rw [hperm.nodup_iff, nodup_append]
    refine ⟨hf.nodup, (dag.nodup_children id).filter _, ?_⟩
    rintro v hold w hnew rfl
    exact hfresh v (mem_filter.mp hnew).1 hold
  · intro v hv hz
    by_cases hchild : v ∈ dag.children id
    · have hpos := (hw v hchild).2
      rw [hget, if_pos hchild] at hz
      have hone : remaining.getD v 0 = 1 := by omega
      exact mem_append_left _ (mem_append_right _ (mem_filter.mpr ⟨hchild, decide_eq_true hone⟩))
    · rw [hget, if_neg hchild] at hz
      have hold := hc.all v hv (by omega)
      simp only [mem_append] at hold ⊢
      tauto

end AeroFtp.Dag
