import OlaOs.Lib.Seq
import OlaOs.Tree.BatchTree

/-! `calculate` computes the reference tree of its batch. The invariant of the level loop says
which operations stand below each node of the current level and what their updates hold; inside
a level it is carried along the merged operations of each parent. -/
namespace OlaOs

open UpdatesBatch

variable {Row : Type}

namespace BatchOps

variable (hasher : Hasher Row) (m : ℕ → TreeValue) (o : BatchOps)

/-- The entry of `cur_path_map` for an operation, before or after its worker has run. -/
def pathUpdate (done : ℕ → Bool) (d i : ℕ) : Update :=
  ⟨i, o.unclesAt hasher m false d i,
    if done i then o.changesAt hasher m (d + 1) i else o.changesAt hasher m d i⟩

/-- The node of operation `i` at height `d`, right after the operation. -/
def current (d i : ℕ) : TreeValue := o.node hasher m (i + 1) d (o.idx d i)

variable {hasher m o}

theorem pathUpdate_congr {done done' : ℕ → Bool} {d i : ℕ} (h : done i = done' i) :
    o.pathUpdate hasher m done d i = o.pathUpdate hasher m done' d i := by
  rw [pathUpdate, pathUpdate, h]

theorem updateIndex_map {t : List ℕ} {f : ℕ → Update} (hf : ∀ j, (f j).index = j) {i : ℕ}
    (hi : i ∈ t) : updateIndex (t.map f) i = some (t.idxOf i) := by
  have offset (k : ℕ) : ((((t.map f).zipIdx k).filter fun e => e.1.index = i).map Prod.snd).head? =
      some (k + t.idxOf i) := by
    induction t generalizing k with
    | nil => simp at hi
    | cons j t ih =>
      by_cases hji : j = i
      · subst hji
        simp [hf]
      · have hi' : i ∈ t := by simpa [Ne.symm hji] using hi
        have hrest := ih hi' (k + 1)
        rw [List.idxOf_cons_ne _ hji]
        simp only [List.map_cons, List.zipIdx_cons, List.filter_cons, hf, hji, decide_false,
          Bool.false_eq_true, ↓reduceIte]
        rw [hrest]
        congr 1
        omega
  simpa [updateIndex] using offset 0

/-- The old value of a node on the path is the node before the operation, read from the database
or from the previous operation below the same node. -/
theorem prePath_eq {done : ℕ → Bool} {d i : ℕ} (hd : d < rootTreeDepth) (hi : i < o.count) :
    prePath ((o.touch d (o.idx d i)).map (o.pathUpdate hasher m done d))
      ((o.touch d (o.idx d i)).map (o.current hasher m d)) ((o.touch d (o.idx d i)).idxOf i) =
      .ok (o.node hasher m i d (o.idx d i)) := by
  have hmem : i ∈ o.touch d (o.idx d i) := o.mem_touch.mpr ⟨hi, rfl⟩
  have hlen : (o.touch d (o.idx d i)).idxOf i < (o.touch d (o.idx d i)).length :=
    List.idxOf_lt_length_of_mem hmem
  obtain ⟨h0, hmin⟩ | ⟨b, hb, hne, hba, hbetween⟩ :=
    Seq.sorted_predecessor (o.touch_sorted d (o.idx d i)) hmem
  · have hfirst : (o.touch d (o.idx d i))[0]? = some i := by
      rw [← h0, List.getElem?_eq_getElem hlen, List.getElem_idxOf hlen]
    have hsame : o.node hasher m i d (o.idx d i) = o.node hasher m 0 d (o.idx d i) := by
      apply o.node_eq_of_untouched hasher m (Nat.zero_le i)
      intro j _ hji hj hidx
      have := hmin j (o.mem_touch.mpr ⟨hj, hidx⟩)
      omega
    rw [prePath, if_pos h0, h0, List.getElem?_map, hfirst, hsame]
    exact congrArg (okOr _) (o.unclesAt_getLast hasher m false hd i)
  · have hbt := o.mem_touch.mp (List.mem_of_getElem? hb)
    have hsame : o.node hasher m i d (o.idx d i) = o.node hasher m (b + 1) d (o.idx d i) := by
      apply o.node_eq_of_untouched hasher m (by omega)
      intro j hbj hji hj hidx
      have := hbetween j (o.mem_touch.mpr ⟨hj, hidx⟩) (by omega)
      omega
    rw [prePath, if_neg hne, List.getElem?_map, hb, hsame, Option.map_some, okOr_some, current,
      hbt.2]

/-- One worker. -/
theorem calculateOp_eq {done : ℕ → Bool} {d i : ℕ} (hd : d < rootTreeDepth) (hi : i < o.count)
    {changes : KeyedMap ℕ (List TreeKey)} {pathMap : UpdateMap}
    (hchanges : changes.Groups (o.idx d) (List.range o.count) (o.current hasher m d))
    (hpath : pathMap.Groups (o.idx d) (List.range o.count) (o.pathUpdate hasher m done d))
    (hdone : done i = false) {nei : Option (Option NodeEntry)}
    (hnei : (nei.join.map NodeEntry.hash).getD
      (o.node hasher m 0 d (SparseMerkle.sibling (o.idx d i))) =
        o.node hasher m i d (SparseMerkle.sibling (o.idx d i))) :
    ∃ pathMap', calculateOp hasher d changes (o.idx (d + 1) i) pathMap
        ((decide (o.idx d i % 2 = 1), o.updateAt hasher m true d i), nei) =
          .ok (o.updateAt hasher m true (d + 1) i, pathMap', (i, o.traceAt hasher m d i)) ∧
      pathMap'.Groups (o.idx d) (List.range o.count)
        (o.pathUpdate hasher m (fun j => done j || j == i) d) := by
  have hmem : i ∈ List.range o.count := List.mem_range.mpr hi
  have htouch : i ∈ o.touch d (o.idx d i) := o.mem_touch.mpr ⟨hi, rfl⟩
  obtain ⟨e, hlast, hkey, hhash⟩ := o.changesAt_getLast hasher m (d := d) hi
  have huncle := o.unclesAt_getLast hasher m true hd i
  rw [neighborIdx_true] at huncle
  have hlook : pathMap.lookup (treeKeyToU256 e.1) =
      some ((o.touch d (o.idx d i)).map (o.pathUpdate hasher m done d)) := by
    rw [hkey]
    exact hpath.lookup_of_mem hmem
  have hclook : changes.lookup (treeKeyToU256 e.1) =
      some ((o.touch d (o.idx d i)).map (o.current hasher m d)) := by
    rw [hkey]
    exact hchanges.lookup_of_mem hmem
  have hpos := updateIndex_map (f := o.pathUpdate hasher m done d) (fun _ => rfl) htouch
  have hnode := o.compressNode_current hasher m (h := d) hi
  refine ⟨pathMap.insert (o.idx d i) (((o.touch d (o.idx d i)).map
    (o.pathUpdate hasher m done d)).modify ((o.touch d (o.idx d i)).idxOf i) fun u =>
      { u with changes := u.changes ++
          [(u256ToTreeKey (o.idx (d + 1) i), o.branchAt hasher m d i)] }), ?_, ?_⟩
  · simp only [calculateOp, updateAt, hlast, huncle, okOr_some, hlook, hpos, hclook, hkey,
      prePath_eq hd hi, hnei, hhash, hnode, bind, Except.bind, pure, Except.pure,
      unclesAt_dropLast, ← changesAt_succ]
    rfl
  · intro q
    rw [KeyedMap.lookup_insert_eq]
    by_cases hq : q = o.idx d i
    · subst hq
      have hne : (List.range o.count).filter (fun b => o.idx d b = o.idx d i) ≠ [] :=
        List.ne_nil_of_mem htouch
      rw [if_pos rfl, if_neg hne, Seq.modify_idxOf (o.touch_nodup d _) htouch]
      congr 1
      apply List.map_congr_left
      intro j _
      by_cases hji : j = i
      · subst hji
        simp [pathUpdate, hdone, changesAt_succ]
      · simp [pathUpdate, hji]
    · rw [if_neg hq, hpath q]
      congr 2
      apply List.map_congr_left
      intro j hj
      have hji : j ≠ i := by
        rintro rfl
        exact hq (o.mem_touch.mp hj).2.symm
      simp [pathUpdate, hji]

/-- The half and the side of a node decide which child it is. -/
theorem side_and_half (i p : ℕ) (right : Bool) :
    ((decide (i % 2 = 1) == right) && decide (i / 2 = p)) =
      decide (i = 2 * p + right.toNat) := by
  rw [Bool.eq_iff_iff]
  cases right with
  | false =>
    simp only [beq_false, Bool.and_eq_true, Bool.not_eq_true', decide_eq_false_iff_not,
      decide_eq_true_eq, Bool.toNat_false]
    omega
  | true =>
    simp only [beq_true, Bool.and_eq_true, decide_eq_true_eq, Bool.toNat_true]
    omega

/-- The operations below one of the children of a node. -/
theorem touch_child (d p : ℕ) (right : Bool) :
    ((o.touch (d + 1) p).filter fun i => decide (o.idx d i % 2 = 1) == right) =
      o.touch d (2 * p + right.toNat) := by
  rw [touch, touch, List.filter_filter]
  refine List.filter_congr fun i _ => ?_
  rw [idx_succ]
  exact side_and_half _ _ _

theorem groups_getD {β : Type} {map : KeyedMap ℕ (List β)} {d : ℕ} {f : ℕ → β}
    (h : map.Groups (o.idx d) (List.range o.count) f) (q : ℕ) :
    (map.lookup q).getD [] = (o.touch d q).map f := by
  rw [h q]
  by_cases ht : (List.range o.count).filter (fun i => o.idx d i = q) = []
  · rw [if_pos ht, touch, ht]
    rfl
  · rw [if_neg ht]
    rfl

variable (hasher m o) in
/-- An operation as it enters the merge: whether it comes from the right child, and its update. -/
def opItem (d i : ℕ) : Bool × Update :=
  (decide (o.idx d i % 2 = 1), o.updateAt hasher m true d i)

/-- The merge of the children walks the operations below the parent in their order. -/
theorem mergedOps_eq {map : UpdateMap} {d : ℕ}
    (h : map.Groups (o.idx d) (List.range o.count) (o.updateAt hasher m true d)) (p : ℕ) :
    mergedOps (map.lookup (2 * p)) (map.lookup (2 * p + 1)) =
      annotate (fun item => item.2.changes.getLast?.map Prod.snd) Prod.fst none none
        ((o.touch (d + 1) p).map (o.opItem hasher m d)) := by
  have hchild (right : Bool) :
      ((map.lookup (2 * p + right.toNat)).getD []).map (fun update => (right, update)) =
        ((o.touch (d + 1) p).map (o.opItem hasher m d)).filter fun item => item.1 == right := by
    rw [groups_getD h, List.filter_map, List.map_map, ← touch_child]
    apply List.map_congr_left
    intro i hi
    have hside := (List.mem_filter.mp hi).2
    simp only [beq_iff_eq] at hside
    simp [opItem, hside]
  have hleft := hchild false
  have hright := hchild true
  simp only [Bool.toNat_false, Bool.toNat_true, Nat.add_zero, beq_true, beq_false]
    at hleft hright
  have hswap (a b : Bool × Update) :
      compare b.2.index a.2.index = (compare a.2.index b.2.index).swap :=
    Nat.compare_swap _ _ |>.symm
  have hsorted : ((o.touch (d + 1) p).map (o.opItem hasher m d)).Pairwise
      fun a b => compare a.2.index b.2.index = .lt := by
    rw [List.pairwise_map]
    exact (o.touch_sorted (d + 1) p).imp fun hij => Nat.compare_eq_lt.mpr hij
  rw [mergedOps, hleft, hright, MergeJoinWithMaxPredecessor.collect_eq_merge hswap,
    mergeWithLast_filter Prod.fst _ hsorted hswap]
  -- the index of an operation decides the side it is on
  intro l hl r hr heq
  obtain ⟨hl, hlside⟩ := List.mem_filter.mp hl
  obtain ⟨hr, hrside⟩ := List.mem_filter.mp hr
  obtain ⟨i, _, rfl⟩ := List.mem_map.mp hl
  obtain ⟨j, _, rfl⟩ := List.mem_map.mp hr
  obtain rfl : i = j := Nat.compare_eq_eq.mp heq
  rw [hrside] at hlside
  exact absurd hlside (by decide)

/-- The operations below `p` from time `s` on. -/
def Pending (o : BatchOps) (d p s : ℕ) (l : List ℕ) : Prop :=
  l.Pairwise (· < ·) ∧ (∀ i ∈ l, s ≤ i ∧ i < o.count ∧ o.idx (d + 1) i = p) ∧
    ∀ i, s ≤ i → i < o.count → o.idx (d + 1) i = p → i ∈ l

theorem pending_touch (d p : ℕ) : o.Pending d p 0 (o.touch (d + 1) p) :=
  ⟨o.touch_sorted (d + 1) p, fun _ hi => ⟨Nat.zero_le _, o.mem_touch.mp hi⟩,
    fun _ _ hi hp => o.mem_touch.mpr ⟨hi, hp⟩⟩

theorem Pending.tail {d p s i : ℕ} {l : List ℕ} (h : o.Pending d p s (i :: l)) :
    o.Pending d p (i + 1) l := by
  obtain ⟨hsort, hmem, hall⟩ := h
  obtain ⟨hlt, hsort⟩ := List.pairwise_cons.mp hsort
  refine ⟨hsort, fun j hj => ⟨hlt j hj, (hmem j (by simp [hj])).2⟩, fun j hij hj hp => ?_⟩
  have hs := (hmem i (by simp)).1
  rcases List.mem_cons.mp (hall j (by omega) hj hp) with rfl | h
  · omega
  · exact h

/-- A remembered predecessor of one child, or the database if there is none, gives the child's
hash at time `s`. -/
def Remembered (hasher : Hasher Row) (m : ℕ → TreeValue) (o : BatchOps) (d q s : ℕ)
    (last : Option (Option NodeEntry)) : Prop :=
  (last.join.map NodeEntry.hash).getD (o.node hasher m 0 d q) = o.node hasher m s d q

theorem remembered_start {d q : ℕ} : Remembered hasher m o d q 0 none := rfl

theorem Remembered.advance {d p s i : ℕ} {l : List ℕ} {last : Option (Option NodeEntry)} {q : ℕ}
    (hr : Remembered hasher m o d q s last) (hp : o.Pending d p s (i :: l)) (hq : q / 2 = p) :
    Remembered hasher m o d q i last := by
  obtain ⟨hsort, hmem, hall⟩ := hp
  rw [Remembered, hr]
  symm
  apply o.node_eq_of_untouched hasher m (hmem i (by simp)).1
  intro j hsj hji hj hidx
  have hjl := hall j hsj hj (by rw [idx_succ, hidx, hq])
  rcases List.mem_cons.mp hjl with rfl | hjl
  · omega
  · have := (List.pairwise_cons.mp hsort).1 j hjl
    omega

theorem Remembered.after_sibling {d i q : ℕ} {last : Option (Option NodeEntry)}
    (hi : i < o.count) (hq : q = SparseMerkle.sibling (o.idx d i))
    (hr : Remembered hasher m o d q i last) : Remembered hasher m o d q (i + 1) last := by
  subst hq
  rw [Remembered, hr, o.node_sibling hasher m hi]

theorem remembered_self {d i q : ℕ} (hi : i < o.count) (hq : q = o.idx d i) :
    Remembered hasher m o d q (i + 1)
      (some ((o.changesAt hasher m d i).getLast?.map Prod.snd)) := by
  subst hq
  obtain ⟨e, hlast, -, hhash⟩ := o.changesAt_getLast hasher m (d := d) hi
  rw [Remembered, hlast]
  exact hhash

/-- The workers below one parent, in the order of the operations. -/
theorem calculateOps_eq {d p : ℕ} (hd : d < rootTreeDepth) {changes : KeyedMap ℕ (List TreeKey)}
    (hchanges : changes.Groups (o.idx d) (List.range o.count) (o.current hasher m d))
    {l : List ℕ} {s : ℕ} {pl pr : Option (Option NodeEntry)} {done : ℕ → Bool}
    {pathMap : UpdateMap} (hl : o.Pending d p s l)
    (hpl : Remembered hasher m o d (2 * p) s pl) (hpr : Remembered hasher m o d (2 * p + 1) s pr)
    (hpath : pathMap.Groups (o.idx d) (List.range o.count) (o.pathUpdate hasher m done d))
    (hdone : ∀ i ∈ l, done i = false) :
    ∃ pathMap', calculateOps hasher d changes p pathMap
        (annotate (fun item => item.2.changes.getLast?.map Prod.snd) Prod.fst pl pr
          (l.map (o.opItem hasher m d))) =
          .ok (l.map (o.updateAt hasher m true (d + 1)), pathMap',
            l.map fun i => (i, o.traceAt hasher m d i)) ∧
      pathMap'.Groups (o.idx d) (List.range o.count)
        (o.pathUpdate hasher m (fun j => done j || decide (j ∈ l)) d) := by
  induction l generalizing s pl pr done pathMap with
  | nil => exact ⟨pathMap, rfl, by simpa using hpath⟩
  | cons i l ih =>
    have hi := hl.2.1 i (by simp)
    have hidx : o.idx d i / 2 = p := by rw [← idx_succ, hi.2.2]
    have hpl' := hpl.advance hl (by omega)
    have hpr' := hpr.advance hl (by omega)
    have hnotMem : i ∉ l := fun h => absurd ((List.pairwise_cons.mp hl.1).1 i h) (lt_irrefl i)
    -- what the rest of the walk sees once operation `i` is done
    have step {nei pl' pr' : Option (Option NodeEntry)}
        (hnei : Remembered hasher m o d (SparseMerkle.sibling (o.idx d i)) i nei)
        (hpl : Remembered hasher m o d (2 * p) (i + 1) pl')
        (hpr : Remembered hasher m o d (2 * p + 1) (i + 1) pr') :
        ∃ pathMap', calculateOps hasher d changes p pathMap ((o.opItem hasher m d i, nei) ::
            annotate (fun item => item.2.changes.getLast?.map Prod.snd) Prod.fst pl' pr'
              (l.map (o.opItem hasher m d))) =
              .ok ((i :: l).map (o.updateAt hasher m true (d + 1)), pathMap',
                (i :: l).map fun i => (i, o.traceAt hasher m d i)) ∧
          pathMap'.Groups (o.idx d) (List.range o.count)
            (o.pathUpdate hasher m (fun j => done j || decide (j ∈ i :: l)) d) := by
      obtain ⟨pathMap₁, hop, hpath₁⟩ :=
        calculateOp_eq hd hi.2.1 hchanges hpath (hdone i (by simp)) hnei
      obtain ⟨pathMap₂, hops, hpath₂⟩ := ih hl.tail hpl hpr hpath₁ fun j hj => by
        have hji : j ≠ i := fun h => hnotMem (h ▸ hj)
        simp [hdone j (by simp [hj]), hji]
      rw [hi.2.2] at hop
      refine ⟨pathMap₂, ?_, ?_⟩
      · simp only [calculateOps, opItem, hop, hops, bind, Except.bind, pure, Except.pure,
          List.map_cons]
      · apply hpath₂.of_eq
        intro j _
        apply pathUpdate_congr
        simp [Bool.or_assoc, Bool.beq_eq_decide_eq]
    rw [List.map_cons, annotate]
    by_cases hodd : o.idx d i % 2 = 1
    · have hsib : 2 * p = SparseMerkle.sibling (o.idx d i) := by
        rw [SparseMerkle.sibling_eq, if_pos hodd]; omega
      rw [if_pos (by simpa [opItem] using hodd)]
      exact step (hsib ▸ hpl') (hpl'.after_sibling hi.2.1 hsib)
        (remembered_self hi.2.1 (by omega))
    · have hsib : 2 * p + 1 = SparseMerkle.sibling (o.idx d i) := by
        rw [SparseMerkle.sibling_eq, if_neg hodd]; omega
      rw [if_neg (by simpa [opItem] using hodd)]
      exact step (hsib ▸ hpr') (remembered_self hi.2.1 (by omega))
        (hpr'.after_sibling hi.2.1 hsib)

/-- `cur_changes` holds the node of every operation at the level. -/
theorem curChanges_groups {done : ℕ → Bool} {d : ℕ} {pathMap : UpdateMap}
    (hdone : ∀ i, done i = false)
    (h : pathMap.Groups (o.idx d) (List.range o.count) (o.pathUpdate hasher m done d)) :
    ∃ changes, curChanges pathMap = .ok changes ∧
      changes.Groups (o.idx d) (List.range o.count) (o.current hasher m d) := by
  let lastHash (u : Update) : TreeKey :=
    (u.changes.getLast?.map fun change => change.2.hash).getD treeKeyDefault
  have hlast (i : ℕ) (hi : i < o.count) : ∃ change,
      (o.pathUpdate hasher m done d i).changes.getLast? = some change ∧
        change.2.hash = o.current hasher m d i := by
    obtain ⟨change, hlast, -, hhash⟩ := o.changesAt_getLast hasher m (d := d) hi
    exact ⟨change, by simpa [pathUpdate, hdone] using hlast, hhash⟩
  refine ⟨.ofList (pathMap.toList.map fun e => (e.1, e.2.map lastHash)), ?_, ?_⟩
  · rw [curChanges, Seq.mapM_eq_ok (g := fun e => (e.1, e.2.map lastHash))]
    · rfl
    · rintro ⟨key, updates⟩ he
      dsimp only
      rw [Seq.mapM_eq_ok (g := lastHash)]
      · rfl
      · intro u hu
        obtain ⟨i, hi, -, rfl⟩ := h.mem_of_lookup (KeyedMap.mem_toList.mp he) hu
        obtain ⟨change, hchange, -⟩ := hlast i (List.mem_range.mp hi)
        simp only [lastHash, hchange, okOr_some]
        rfl
  · apply (h.map lastHash).of_eq
    intro i hi
    obtain ⟨change, hchange, hhash⟩ := hlast i (List.mem_range.mp hi)
    simp only [Function.comp, lastHash, hchange, Option.map_some, Option.getD_some, hhash]

/-- All parents of a level. -/
theorem calculateParents_eq {d : ℕ} (hd : d < rootTreeDepth) {changes : KeyedMap ℕ (List TreeKey)}
    (hchanges : changes.Groups (o.idx d) (List.range o.count) (o.current hasher m d))
    {map : UpdateMap}
    (hmap : map.Groups (o.idx d) (List.range o.count) (o.updateAt hasher m true d))
    {parents : List (ℕ × (Option (List Update) × Option (List Update)))}
    (hnd : (parents.map Prod.fst).Nodup)
    (hpar : ∀ e ∈ parents, e.2 = (map.lookup (2 * e.1), map.lookup (2 * e.1 + 1)))
    {done : ℕ → Bool} {pathMap : UpdateMap}
    (hpath : pathMap.Groups (o.idx d) (List.range o.count) (o.pathUpdate hasher m done d))
    (hdone : ∀ i, o.idx (d + 1) i ∈ parents.map Prod.fst → done i = false) :
    ∃ pathMap', calculateParents hasher d changes pathMap parents =
        .ok ((parents.map Prod.fst).map fun p =>
            (p, (o.touch (d + 1) p).map (o.updateAt hasher m true (d + 1))),
          pathMap', (parents.map Prod.fst).flatMap fun p =>
            (o.touch (d + 1) p).map fun i => (i, o.traceAt hasher m d i)) ∧
      pathMap'.Groups (o.idx d) (List.range o.count) (o.pathUpdate hasher m
        (fun j => done j || decide (o.idx (d + 1) j ∈ parents.map Prod.fst)) d) := by
  induction parents generalizing done pathMap with
  | nil => exact ⟨pathMap, rfl, by simpa using hpath⟩
  | cons e parents ih =>
    obtain ⟨p, children⟩ := e
    obtain rfl : children = (map.lookup (2 * p), map.lookup (2 * p + 1)) :=
      hpar (p, children) (by simp)
    rw [List.map_cons, List.nodup_cons] at hnd
    obtain ⟨pathMap₁, hops, hpath₁⟩ := calculateOps_eq hd hchanges (pending_touch d p)
      remembered_start remembered_start hpath fun i hi => hdone i (by simp [(o.mem_touch.mp hi).2])
    rw [← mergedOps_eq hmap p] at hops
    obtain ⟨pathMap₂, hrest, hpath₂⟩ := ih hnd.2 (fun e he => hpar e (by simp [he])) hpath₁
      fun i hi => by
        have hne : o.idx (d + 1) i ≠ p := fun h => hnd.1 (h ▸ hi)
        simp [hdone i (by simp [hi]), o.mem_touch, hne]
    refine ⟨pathMap₂, ?_, ?_⟩
    · simp only [calculateParents, hops, hrest, bind, Except.bind, pure, Except.pure,
        List.map_cons, List.flatMap_cons]
    · apply hpath₂.of_eq
      intro j hj
      have hj := List.mem_range.mp hj
      apply pathUpdate_congr
      rw [Bool.or_assoc, List.map_cons]
      congr 1
      rw [Bool.eq_iff_iff]
      simp only [Bool.or_eq_true, decide_eq_true_eq, o.mem_touch, List.mem_cons, hj, true_and]

end BatchOps

namespace UpdatesBatch

theorem foldl_children (items : List (ℕ × List Update)) (left right : Option (List Update)) :
    items.foldl (fun acc item =>
      if item.1 % 2 = 1 then (acc.1, some item.2) else (some item.2, acc.2)) (left, right) =
      (((items.filter fun e => decide (e.1 % 2 = 1) == false).getLast?.map Prod.snd).or left,
        ((items.filter fun e => decide (e.1 % 2 = 1) == true).getLast?.map Prod.snd).or right) := by
  induction items using List.reverseRecOn with
  | nil => rfl
  | append_singleton items e ih =>
    rw [List.foldl_concat, ih]
    by_cases he : e.1 % 2 = 1 <;> simp [he, List.filter_append]

/-- The group of a node has what the map holds for each child. -/
theorem filter_child (map : UpdateMap) (p : ℕ) (right : Bool) :
    ((map.toList.filter fun e => e.1 / 2 = p).filter fun e => decide (e.1 % 2 = 1) == right) =
      ((map.lookup (2 * p + right.toNat)).map fun updates =>
        (2 * p + right.toNat, updates)).toList := by
  rw [List.filter_filter, ← KeyedMap.filter_key_toList]
  exact List.filter_congr fun e _ => BatchOps.side_and_half _ _ _

/-- Each group holds the updates of the two children of its node. -/
theorem childUpdates_children {map : UpdateMap}
    {e : ℕ × (Option (List Update) × Option (List Update))} (he : e ∈ childUpdates map) :
    e.2 = (map.lookup (2 * e.1), map.lookup (2 * e.1 + 1)) := by
  obtain ⟨⟨p, items⟩, hmem, rfl⟩ := List.mem_map.mp he
  obtain ⟨-, rfl⟩ := KeyedMap.mem_groupBy.mp hmem
  dsimp only
  rw [foldl_children, filter_child, filter_child, Bool.toNat_false, Bool.toNat_true, Nat.add_zero]
  cases map.lookup (2 * p) <;> cases map.lookup (2 * p + 1) <;> rfl

/-- What the two children of a node hold, one after the other. -/
theorem flatMap_children_perm {β : Type} (map : UpdateMap) (p : ℕ) (f : Update → β) :
    ((map.toList.filter fun e => e.1 / 2 = p).flatMap fun e => e.2.map f).Perm
      (((map.lookup (2 * p + 1)).getD []).map f ++ ((map.lookup (2 * p)).getD []).map f) := by
  have hsplit := List.filter_append_perm (fun e : ℕ × List Update => decide (e.1 % 2 = 1))
    (map.toList.filter fun e => e.1 / 2 = p)
  refine (hsplit.symm.flatMap_right _).trans (List.Perm.of_eq ?_)
  have hleft := filter_child map p false
  have hright := filter_child map p true
  simp only [Bool.toNat_false, Bool.toNat_true, Nat.add_zero, beq_true, beq_false]
    at hleft hright
  rw [List.flatMap_append, hleft, hright]
  cases map.lookup (2 * p) <;> cases map.lookup (2 * p + 1) <;> simp

theorem childUpdates_keys (map : UpdateMap) :
    (childUpdates map).map Prod.fst =
      (KeyedMap.groupBy (fun item => item.1 / 2) map.toList).toList.map Prod.fst := by
  rw [childUpdates, List.map_map]
  rfl

end UpdatesBatch

namespace BatchOps

variable {hasher : Hasher Row} {m : ℕ → TreeValue} {o : BatchOps}

theorem mem_childUpdates_keys {map : UpdateMap} {d p : ℕ} {f : ℕ → Update}
    (h : map.Groups (o.idx d) (List.range o.count) f) :
    p ∈ (childUpdates map).map Prod.fst ↔ ∃ i < o.count, o.idx (d + 1) i = p := by
  rw [childUpdates_keys, KeyedMap.mem_keys_groupBy]
  constructor
  · rintro ⟨⟨q, updates⟩, he, rfl⟩
    rw [KeyedMap.mem_toList, h q] at he
    split_ifs at he with hnil
    obtain ⟨i, hi⟩ := List.exists_mem_of_ne_nil _ hnil
    obtain ⟨hi, hq⟩ := o.mem_touch.mp hi
    exact ⟨i, hi, by rw [idx_succ, hq]⟩
  · rintro ⟨i, hi, rfl⟩
    exact ⟨(o.idx d i, _), KeyedMap.mem_toList.mpr (h.lookup_of_mem (List.mem_range.mpr hi)),
      (o.idx_succ d i).symm⟩

/-- A list of pairs with distinct keys, one for each node with operations below it. -/
theorem groups_ofList {β : Type} {d : ℕ} {f : ℕ → β} {keys : List ℕ} (hnd : keys.Nodup)
    (hkeys : ∀ p, p ∈ keys ↔ ∃ i < o.count, o.idx d i = p) :
    KeyedMap.Groups (.ofList (keys.map fun p => (p, (o.touch d p).map f))) (o.idx d)
      (List.range o.count) f := by
  intro p
  by_cases hp : p ∈ keys
  · obtain ⟨i, hi, rfl⟩ := (hkeys p).mp hp
    have hne : (List.range o.count).filter (fun j => o.idx d j = o.idx d i) ≠ [] :=
      List.ne_nil_of_mem (o.mem_touch.mpr ⟨hi, rfl⟩)
    rw [if_neg hne]
    apply KeyedMap.lookup_ofList_of_mem
    · simpa [List.map_map, Function.comp_def] using hnd
    · exact List.mem_map.mpr ⟨_, hp, rfl⟩
  · have hnil : (List.range o.count).filter (fun j => o.idx d j = p) = [] := by
      rw [List.filter_eq_nil_iff]
      intro i hi hip
      exact hp ((hkeys p).mpr ⟨i, List.mem_range.mp hi, by simpa using hip⟩)
    rw [if_pos hnil]
    apply KeyedMap.lookup_ofList_of_notMem
    intro a ha
    obtain ⟨q, hq, heq⟩ := List.mem_map.mp ha
    obtain rfl : q = p := congrArg Prod.fst heq
    exact hp hq

/-- Sorting the updates of both children by their index restores the order of the operations. -/
theorem mergeSort_updates {t : List ℕ} {f : ℕ → Update} (hf : ∀ i, (f i).index = i)
    (ht : t.Pairwise (· < ·)) {l : List Update} (hp : l.Perm (t.map f)) :
    l.mergeSort (fun a b => decide (a.index ≤ b.index)) = t.map f := by
  have hsorted : (l.mergeSort fun a b => decide (a.index ≤ b.index)).Pairwise fun a b =>
      decide (a.index ≤ b.index) = true := by
    apply List.pairwise_mergeSort
    · intro a b c hab hbc
      simp only [decide_eq_true_eq] at hab hbc ⊢
      omega
    · intro a b
      simp only [Bool.or_eq_true, decide_eq_true_eq]
      omega
  refine List.Perm.eq_of_pairwise ?_ hsorted ?_ ?_
  · intro a b ha hb hab hba
    obtain ⟨i, -, rfl⟩ := List.mem_map.mp (hp.mem_iff.mp ((List.mergeSort_perm _ _).mem_iff.mp ha))
    obtain ⟨j, -, rfl⟩ := List.mem_map.mp hb
    simp only [hf, decide_eq_true_eq] at hab hba
    rw [le_antisymm hab hba]
  · rw [List.pairwise_map]
    apply ht.imp
    intro i j hij
    simp only [hf, decide_eq_true_eq]
    omega
  · exact (List.mergeSort_perm _ _).trans hp

theorem regroupPath_groups {done : ℕ → Bool} {d : ℕ} {pathMap : UpdateMap}
    (hdone : ∀ i < o.count, done i = true)
    (h : pathMap.Groups (o.idx d) (List.range o.count) (o.pathUpdate hasher m done d)) :
    (regroupPath pathMap).Groups (o.idx (d + 1)) (List.range o.count)
      (o.updateAt hasher m false (d + 1)) := by
  have hdrop (i : ℕ) (hi : i < o.count) :
      { o.pathUpdate hasher m done d i with
        uncles := (o.pathUpdate hasher m done d i).uncles.dropLast } =
      o.updateAt hasher m false (d + 1) i := by
    simp only [pathUpdate, hdone i hi, ↓reduceIte, unclesAt_dropLast, updateAt]
  have hchild (q : ℕ) : ((pathMap.lookup q).getD []).map (fun update : Update =>
      { update with uncles := update.uncles.dropLast }) =
      (o.touch d q).map (o.updateAt hasher m false (d + 1)) := by
    rw [groups_getD h, List.map_map]
    exact List.map_congr_left fun i hi => hdrop i (o.mem_touch.mp hi).1
  have hvalue (p : ℕ) : ((pathMap.toList.filter fun e => e.1 / 2 = p).flatMap fun e =>
      e.2.map fun update => { update with uncles := update.uncles.dropLast }).mergeSort
        (fun a b => decide (a.index ≤ b.index)) =
      (o.touch (d + 1) p).map (o.updateAt hasher m false (d + 1)) := by
    apply mergeSort_updates (fun _ => rfl) (o.touch_sorted (d + 1) p)
    refine (flatMap_children_perm pathMap p _).trans ?_
    have hleft := o.touch_child d p false
    have hright := o.touch_child d p true
    simp only [Bool.toNat_false, Bool.toNat_true, Nat.add_zero, beq_true, beq_false]
      at hleft hright
    rw [hchild, hchild, ← List.map_append, ← hleft, ← hright]
    exact (List.filter_append_perm (fun i => decide (o.idx d i % 2 = 1)) _).map _
  have hlist : regroupPath pathMap = .ofList (((KeyedMap.groupBy (fun e => e.1 / 2)
      pathMap.toList).toList.map Prod.fst).map fun p =>
        (p, (o.touch (d + 1) p).map (o.updateAt hasher m false (d + 1)))) := by
    rw [regroupPath, List.map_map]
    congr 1
    apply List.map_congr_left
    rintro ⟨p, items⟩ he
    obtain ⟨-, rfl⟩ := KeyedMap.mem_groupBy.mp he
    exact congrArg (Prod.mk p) (hvalue p)
  rw [hlist, ← childUpdates_keys]
  apply groups_ofList
  · rw [childUpdates_keys]
    exact KeyedMap.nodup_keys_toList _
  · exact fun p => mem_childUpdates_keys h

variable (hasher m o) in
/-- The rows of the trace so far: for each operation, one for each level in order. -/
def TraceInv (d : ℕ) (hashTrace : List (ℕ × HashTrace Row)) : Prop :=
  (∀ e ∈ hashTrace, e.1 < o.count) ∧
    ∀ i < o.count, (hashTrace.filter fun e => e.1 = i) =
      (List.range d).map fun h => (i, o.traceAt hasher m h i)

/-- The nodes of a level share the operations among them. -/
theorem flatMap_touch_perm {d : ℕ} {keys : List ℕ} (hnd : keys.Nodup)
    (hkeys : ∀ p, p ∈ keys ↔ ∃ i < o.count, o.idx d i = p) :
    (keys.flatMap (o.touch d)).Perm (List.range o.count) := by
  have hdisj : (keys.flatMap (o.touch d)).Nodup := by
    rw [List.nodup_flatMap]
    refine ⟨fun p _ => o.touch_nodup d p, hnd.imp fun {p q} hpq i hp hq => hpq ?_⟩
    rw [← (o.mem_touch.mp hp).2, (o.mem_touch.mp hq).2]
  rw [List.perm_ext_iff_of_nodup hdisj List.nodup_range]
  intro i
  simp only [List.mem_flatMap, o.mem_touch, List.mem_range]
  constructor
  · rintro ⟨p, -, hi, -⟩
    exact hi
  · intro hi
    exact ⟨o.idx d i, (hkeys _).mpr ⟨i, hi, rfl⟩, hi, rfl⟩

/-- A level appends one row for each operation, in any order. -/
theorem TraceInv.append {d : ℕ} {hashTrace rows : List (ℕ × HashTrace Row)}
    (h : o.TraceInv hasher m d hashTrace)
    (hrows : rows.Perm ((List.range o.count).map fun i => (i, o.traceAt hasher m d i))) :
    o.TraceInv hasher m (d + 1) (hashTrace ++ rows) := by
  constructor
  · intro e he
    rcases List.mem_append.mp he with he | he
    · exact h.1 e he
    · obtain ⟨i, hi, rfl⟩ := List.mem_map.mp (hrows.mem_iff.mp he)
      exact List.mem_range.mp hi
  · intro i hi
    have hone : (rows.filter fun e => e.1 = i).Perm [(i, o.traceAt hasher m d i)] := by
      refine (hrows.filter _).trans (List.Perm.of_eq ?_)
      rw [List.filter_map]
      have hfilter : (List.range o.count).filter (fun j => j = i) = [i] := by
        rw [List.filter_eq, List.count_eq_one_of_mem List.nodup_range (List.mem_range.mpr hi)]
        rfl
      simp only [Function.comp_def, hfilter, List.map_cons, List.map_nil]
    rw [List.filter_append, h.2 i hi, List.perm_singleton.mp hone, List.range_succ,
      List.map_append]
    rfl

variable (hasher m o) in
structure LevelInv (d : ℕ) (s : LevelState Row) : Prop where
  updates : s.curLvlUpdatesMap.Groups (o.idx d) (List.range o.count) (o.updateAt hasher m true d)
  paths : s.curPathMap.Groups (o.idx d) (List.range o.count) (o.updateAt hasher m false d)
  trace : o.TraceInv hasher m d s.hashTrace

theorem calculateLevel_inv (sched : Schedule Row) {d : ℕ} (hd : d < rootTreeDepth)
    {s : LevelState Row} (h : o.LevelInv hasher m d s) :
    ∃ s', calculateLevel hasher sched s d = .ok s' ∧ o.LevelInv hasher m (d + 1) s' := by
  have hpaths : s.curPathMap.Groups (o.idx d) (List.range o.count)
      (o.pathUpdate hasher m (fun _ => false) d) := h.paths.of_eq fun _ _ => rfl
  obtain ⟨changes, hcur, hchanges⟩ := curChanges_groups (fun _ => rfl) hpaths
  have hnd : ((childUpdates s.curLvlUpdatesMap).map Prod.fst).Nodup := by
    rw [childUpdates_keys]
    exact KeyedMap.nodup_keys_toList _
  have hkeys (p : ℕ) := mem_childUpdates_keys (p := p) h.updates
  obtain ⟨pathMap, hparents, hpath⟩ := calculateParents_eq hd hchanges h.updates hnd
    (fun e he => childUpdates_children he) hpaths (fun _ _ => rfl)
  refine ⟨_, by simp only [calculateLevel, hcur, hparents, bind, Except.bind]; rfl, ?_, ?_, ?_⟩
  · exact groups_ofList hnd hkeys
  · apply regroupPath_groups _ hpath
    intro i hi
    simpa using (hkeys _).mpr ⟨i, hi, rfl⟩
  · apply h.trace.append
    refine (sched.perm d _).trans ?_
    rw [← List.map_flatMap]
    exact (flatMap_touch_perm hnd hkeys).map _

/-- The result of `calculate` on a prepared batch: the patch of operation `i` is entry `i`, and
the trace holds the rows of every operation in the order of the levels. -/
theorem calculate_eq (sched : Schedule Row) {batch : UpdatesBatch}
    (hupdates : batch.updates.Groups (o.idx 0) (List.range o.count) (o.updateAt hasher m true 0))
    (hpaths : batch.preUpdates.Groups (o.idx 0) (List.range o.count)
      (o.updateAt hasher m false 0)) :
    ∃ hashTrace, batch.calculate hasher sched =
        .ok ((List.range o.count).map (o.changesAt hasher m rootTreeDepth), hashTrace) ∧
      o.TraceInv hasher m rootTreeDepth hashTrace := by
  obtain ⟨final, hrun, hinv⟩ := Seq.foldlM_range _ (o.LevelInv hasher m) rootTreeDepth
    (fun d s hd h => calculateLevel_inv sched hd h)
    (s := ⟨batch.updates, batch.preUpdates, []⟩)
    ⟨hupdates, hpaths, by simp [TraceInv]⟩
  refine ⟨final.hashTrace, ?_, hinv.trace⟩
  have hall : o.touch rootTreeDepth 0 = List.range o.count := by
    simp [touch, idx_root]
  have hkey (e : ℕ × List Update) (he : e ∈ final.curLvlUpdatesMap.toList) : e.1 = 0 := by
    rw [KeyedMap.mem_toList, hinv.updates e.1] at he
    split_ifs at he with hnil
    obtain ⟨i, hi⟩ := List.exists_mem_of_ne_nil _ hnil
    rw [← (o.mem_touch.mp hi).2, idx_root]
  have hlist : final.curLvlUpdatesMap.toList =
      ((final.curLvlUpdatesMap.lookup 0).map fun updates => (0, updates)).toList := by
    rw [← KeyedMap.filter_key_toList, List.filter_eq_self.mpr]
    intro e he
    simpa using hkey e he
  have hlookup := groups_getD hinv.updates 0
  rw [hall] at hlookup
  have hpatch : (final.curLvlUpdatesMap.toList.flatMap fun e => e.2.map Update.changes) =
      (List.range o.count).map (o.changesAt hasher m rootTreeDepth) := by
    rw [hlist]
    cases hl : final.curLvlUpdatesMap.lookup 0 with
    | none =>
      rw [hl] at hlookup
      have hnil := List.map_eq_nil_iff.mp hlookup.symm
      simp [hnil]
    | some updates =>
      rw [hl, Option.getD_some] at hlookup
      simp [hlookup, updateAt, Function.comp_def]
  simp only [calculate, hrun, bind, Except.bind, pure, Except.pure, hpatch]

end BatchOps

end OlaOs
