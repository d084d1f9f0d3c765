import OlaOs.Tree.PatchSpec

/-! `apply_updates_batch` on one block: what is read from a database that holds the tree over a
leaf map, and what is computed from it. -/
namespace OlaOs

variable {Row : Type}

/-- Node records, under level and index, that hold the tree over the leaf map `m`; a missing
record stands for the precomputed empty subtree of its level. -/
structure NodesConsistent (hasher : Hasher Row) (nodes : LevelIndex → Option DbValue)
    (m : ℕ → TreeValue) : Prop where
  stored : ∀ level ≤ rootTreeDepth, ∀ i < 2 ^ level, ∀ value, nodes (level, i) = some value →
    value = .hash (SparseMerkle.node hasher.combine m (rootTreeDepth - level) i)
  absent : ∀ level ≤ rootTreeDepth, ∀ i < 2 ^ level, nodes (level, i) = none →
    ((TreeConfig.emptyEntries hasher)[level]?).map NodeEntry.hash =
      some (SparseMerkle.node hasher.combine m (rootTreeDepth - level) i)

/-- Records laid over those of the tree over `m`: a place that has one holds its new hash, and any
other place keeps its hash. -/
theorem NodesConsistent.overlay {hasher : Hasher Row} {nodes : LevelIndex → Option DbValue}
    {m m' : ℕ → TreeValue} (hc : NodesConsistent hasher nodes m)
    (patch : LevelIndex → Option DbValue)
    (hpatch : ∀ level ≤ rootTreeDepth, ∀ i < 2 ^ level,
      patch (level, i) =
        some (.hash (SparseMerkle.node hasher.combine m' (rootTreeDepth - level) i)) ∨
      (patch (level, i) = none ∧ SparseMerkle.node hasher.combine m' (rootTreeDepth - level) i =
        SparseMerkle.node hasher.combine m (rootTreeDepth - level) i)) :
    NodesConsistent hasher (fun lvlIdx => (patch lvlIdx).or (nodes lvlIdx)) m' := by
  constructor
  · intro level hl i hi value hvalue
    obtain hlook | ⟨hlook, hsame⟩ := hpatch level hl i hi
    · rw [hlook] at hvalue
      exact (Option.some.inj hvalue).symm
    · rw [hlook] at hvalue
      rw [hc.stored level hl i hi value hvalue, ← hsame]
  · intro level hl i hi hnone
    obtain hlook | ⟨hlook, hsame⟩ := hpatch level hl i hi
    · rw [hlook] at hnone
      cases hnone
    · rw [hlook] at hnone
      rw [hc.absent level hl i hi hnone, ← hsame]

/-- The node records of a database. -/
def Db.nodes (env : TreeEnv Row) (db : Db) (lvlIdx : LevelIndex) : Option DbValue :=
  db.leafIndices (env.binKey lvlIdx)

/-- An empty database holds the tree all of whose leaves are the default leaf. -/
theorem nodesConsistent_empty (env : TreeEnv Row) :
    NodesConsistent env.hasher (Db.empty.nodes env) fun _ => treeKeyDefault := by
  constructor
  · intro level _ i _ value hvalue
    cases hvalue
  · intro level hl i _ _
    rw [TreeConfig.emptyEntries_hash env.hasher hl, SparseMerkle.node_const]

def BatchOps.ofLogs (hasher : Hasher Row) (logs : List (TreeKey × TreeOperation)) : BatchOps where
  count := logs.length
  key i := (logs[i]?.map Prod.fst).getD treeKeyDefault
  value i := (logs[i]?.map fun log => log.2.leafHash hasher).getD treeKeyDefault

namespace BatchOps

variable {hasher : Hasher Row} {logs : List (TreeKey × TreeOperation)}

theorem ofLogs_key (hasher : Hasher Row) {i : ℕ} (hi : i < logs.length) :
    (ofLogs hasher logs).key i = logs[i].1 := by
  simp [ofLogs, hi]

theorem ofLogs_value (hasher : Hasher Row) {i : ℕ} (hi : i < logs.length) :
    (ofLogs hasher logs).value i = logs[i].2.leafHash hasher := by
  simp [ofLogs, hi]

theorem ofLogs_assigns : (ofLogs hasher logs).assigns =
    logs.map fun log => (treeKeyToU256 log.1, log.2.leafHash hasher) := by
  apply List.ext_getElem
  · simp [assigns, ofLogs]
  · intro i h₁ h₂
    rw [getElem_assigns, List.getElem_map, ofLogs_key _ (by simpa using h₂),
      ofLogs_value _ (by simpa using h₂)]

end BatchOps

namespace AccountTree

variable {env : TreeEnv Row} {storage : Storage} {m : ℕ → TreeValue}

theorem hashByLvlIdx_eq (hc : NodesConsistent env.hasher (storage.db.nodes env) m)
    {level i : ℕ} (hl : level ≤ rootTreeDepth) (hi : i < 2 ^ level) :
    hashByLvlIdx env storage (level, i) = .ok (u256ToTreeKey i,
      SparseMerkle.node env.hasher.combine m (rootTreeDepth - level) i) := by
  cases hv : storage.db.nodes env (level, i) with
  | none =>
    have habsent := hc.absent level hl i hi hv
    have hnone : storage.hash env (level, i) = none := hv
    simp only [hashByLvlIdx, hnone, TreeConfig.emptyTree_eq, bind, Except.bind, habsent,
      orPanic_some, pure, Except.pure]
  | some value =>
    obtain rfl := hc.stored level hl i hi value hv
    have hsome : storage.hash env (level, i) =
        some (.hash (SparseMerkle.node env.hasher.combine m (rootTreeDepth - level) i)) := hv
    simp only [hashByLvlIdx, hsome, bind, Except.bind, pure, Except.pure]

theorem neighborIdx_lt {q k : ℕ} (neiFlag : Bool) (hk : 0 < k) (hq : q < 2 ^ k) :
    neighborIdx q neiFlag < 2 ^ k := by
  cases neiFlag with
  | false => exact hq
  | true =>
    obtain ⟨k, rfl⟩ := Nat.exists_eq_add_of_lt hk
    have heven : 2 ^ (0 + k + 1) = 2 * 2 ^ k := by ring
    rw [BatchOps.neighborIdx_true, SparseMerkle.sibling_eq]
    split_ifs <;> omega

variable (env m) in
/-- The path of a key in the tree over `m`. -/
def pathOf (neiFlag : Bool) (key : TreeKey) : List (TreeKey × TreeKey) :=
  (idxToMerklePath (treeKeyToU256 key) neiFlag).map fun lvlIdx => (u256ToTreeKey lvlIdx.2,
    SparseMerkle.node env.hasher.combine m (rootTreeDepth - lvlIdx.1) lvlIdx.2)

theorem mapM_hashByLvlIdx (hc : NodesConsistent env.hasher (storage.db.nodes env) m)
    (neiFlag : Bool) (key : TreeKey) :
    (idxToMerklePath (treeKeyToU256 key) neiFlag).mapM (hashByLvlIdx env storage) =
      .ok (pathOf env m neiFlag key) := by
  apply Seq.mapM_eq_ok
  intro lvlIdx hmem
  obtain ⟨level, hlevel, rfl⟩ := List.mem_map.mp hmem
  have hlevel := List.mem_range.mp hlevel
  apply hashByLvlIdx_eq hc (by omega)
  apply neighborIdx_lt neiFlag (by omega)
  rw [Nat.div_lt_iff_lt_mul (Nat.two_pow_pos _), ← pow_add,
    show level + 1 + (rootTreeDepth - (level + 1)) = rootTreeDepth by omega, rootTreeDepth_eq]
  exact treeKeyToU256_lt key

/-- The path read for an operation is the database part of its update. -/
theorem pathOf_snd (o : BatchOps) (neiFlag : Bool) (i : ℕ) :
    (pathOf env m neiFlag (o.key i)).map Prod.snd = o.unclesAt env.hasher m neiFlag 0 i := by
  rw [pathOf, List.map_map, idxToMerklePath, List.map_map, BatchOps.unclesAt]
  rfl

variable {logs : List (TreeKey × TreeOperation × ℕ)}

theorem hashPathsToLeaves_eq (hc : NodesConsistent env.hasher (storage.db.nodes env) m)
    (neiFlag : Bool) :
    hashPathsToLeaves env storage logs neiFlag = .ok (logs.map fun log =>
      (pathOf env m neiFlag log.1).map Prod.snd ++ [log.2.1.leafHash env.hasher]) := by
  have hpaths : getLeavesPaths env storage (logs.map fun log => log.1) neiFlag =
      .ok ((logs.map fun log => log.1).map (pathOf env m neiFlag)) :=
    Seq.mapM_eq_ok fun key _ => mapM_hashByLvlIdx hc neiFlag key
  have hzip := Seq.zip_map_self (fun log => pathOf env m neiFlag log.1) logs
  simp only [hashPathsToLeaves, hpaths, List.map_map, bind, Except.bind, pure, Except.pure]
  rw [Function.comp_def, hzip, List.map_map]
  rfl

/-- The update of each operation, before the first level. -/
theorem mapM_keyedUpdate (neiFlag : Bool) {plain : List (TreeKey × TreeOperation)}
    (hplain : logs.map (fun log => (log.1, log.2.1)) = plain) :
    ((logs.map fun log => (pathOf env m neiFlag log.1).map Prod.snd ++
        [log.2.1.leafHash env.hasher]).zip logs.zipIdx).mapM keyedUpdate =
      .ok ((List.range plain.length).map fun i => ((BatchOps.ofLogs env.hasher plain).key i,
        (BatchOps.ofLogs env.hasher plain).updateAt env.hasher m neiFlag 0 i)) := by
  let value (e : (TreeKey × TreeOperation × ℕ) × ℕ) : TreeKey × Update :=
    (e.1.1, ⟨e.2, (pathOf env m neiFlag e.1.1).map Prod.snd,
      [(e.1.1, .leaf (e.1.2.1.leafHash env.hasher))]⟩)
  have hzip : (logs.map fun log => (pathOf env m neiFlag log.1).map Prod.snd ++
      [log.2.1.leafHash env.hasher]).zip logs.zipIdx =
      logs.zipIdx.map fun e => ((pathOf env m neiFlag e.1.1).map Prod.snd ++
        [e.1.2.1.leafHash env.hasher], e) := by
    rw [← Seq.zip_map_self]
    congr 1
    conv_lhs => rw [← List.zipIdx_map_fst 0 logs, List.map_map]
    rfl
  rw [hzip, List.mapM_map, Seq.mapM_eq_ok (g := value)]
  · congr 1
    subst hplain
    apply List.ext_getElem
    · simp
    · intro i h₁ h₂
      have hi : i < logs.length := by simpa using h₁
      have hlt : i < (logs.map fun log => (log.1, log.2.1)).length := by simpa using hi
      have hkey := BatchOps.ofLogs_key env.hasher hlt
      have hvalue := BatchOps.ofLogs_value env.hasher hlt
      rw [List.getElem_map] at hkey hvalue
      simp only [List.getElem_map, List.getElem_zipIdx, List.getElem_range, value,
        BatchOps.updateAt, BatchOps.changesAt, ← pathOf_snd, hkey, hvalue, Nat.zero_add,
        List.range_zero, List.map_nil]
  · rintro ⟨⟨key, operation, index⟩, opIdx⟩ -
    simp [keyedUpdate, Update.new, value, bind, Except.bind, pure, Except.pure]

/-- The prepared map groups the operations by their leaf. Distinct keys stay apart because a
canonical key is its own representative. -/
theorem updateMap_groups (hc : NodesConsistent env.hasher (storage.db.nodes env) m)
    (neiFlag : Bool) {plain : List (TreeKey × TreeOperation)}
    (hplain : logs.map (fun log => (log.1, log.2.1)) = plain)
    (hcanon : ∀ log ∈ plain, log.1.Canonical) :
    ∃ map, updateMap env storage logs neiFlag = .ok map ∧
      map.Groups ((BatchOps.ofLogs env.hasher plain).idx 0) (List.range plain.length)
        ((BatchOps.ofLogs env.hasher plain).updateAt env.hasher m neiFlag 0) := by
  let o := BatchOps.ofLogs env.hasher plain
  have hkey (i : ℕ) (hi : i < plain.length) : (o.key i).canonical = o.key i := by
    apply TreeKey.canonical_eq
    rw [BatchOps.ofLogs_key _ hi]
    exact hcanon _ (List.getElem_mem hi)
  let groups := KeyedMap.groupBy (fun e : TreeKey × Update => e.1.canonical)
    ((List.range plain.length).map fun i => (o.key i, o.updateAt env.hasher m neiFlag 0 i))
  have hentry : ∀ e ∈ groups.toList,
      (e.2.head?.map fun first => (treeKeyToU256 first.1, e.2.map Prod.snd)) =
        some (treeKeyToU256 e.1, (o.touch 0 (treeKeyToU256 e.1)).map
          (o.updateAt env.hasher m neiFlag 0)) := by
    rintro ⟨key, items⟩ he
    obtain ⟨hne, hitems⟩ := KeyedMap.mem_groupBy.mp he
    have htouch : items = (o.touch 0 (treeKeyToU256 key)).map fun i =>
        (o.key i, o.updateAt env.hasher m neiFlag 0 i) := by
      rw [hitems, List.filter_map, BatchOps.touch]
      congr 1
      apply List.filter_congr
      intro i hi
      have hi := List.mem_range.mp hi
      simp only [Function.comp, hkey i hi, BatchOps.idx_zero, treeKeyToU256_injective.eq_iff]
    obtain ⟨i, rest, hfirst⟩ : ∃ i rest, o.touch 0 (treeKeyToU256 key) = i :: rest := by
      cases ht : o.touch 0 (treeKeyToU256 key) with
      | nil => exact absurd (by rw [htouch, ht]; rfl) hne
      | cons i rest => exact ⟨i, rest, rfl⟩
    have hi : o.idx 0 i = treeKeyToU256 key :=
      (o.mem_touch.mp (hfirst ▸ List.mem_cons_self)).2
    rw [BatchOps.idx_zero] at hi
    dsimp only
    rw [htouch, List.map_map, hfirst]
    simp only [List.map_cons, List.head?_cons, Option.map_some, hi]
    rfl
  have hlist : groups.toList.filterMap (fun e : TreeKey × List (TreeKey × Update) =>
      e.2.head?.map fun first => (treeKeyToU256 first.1, e.2.map Prod.snd)) =
      ((groups.toList.map Prod.fst).map treeKeyToU256).map fun p =>
        (p, (o.touch 0 p).map (o.updateAt env.hasher m neiFlag 0)) := by
    rw [Seq.filterMap_eq_map hentry, List.map_map, List.map_map]
    rfl
  refine ⟨.ofList (((groups.toList.map Prod.fst).map treeKeyToU256).map fun p =>
    (p, (o.touch 0 p).map (o.updateAt env.hasher m neiFlag 0))), ?_, ?_⟩
  · rw [← hlist]
    simp only [updateMap, hashPathsToLeaves_eq hc, mapM_keyedUpdate neiFlag hplain, bind,
      Except.bind, pure, Except.pure]
    rfl
  · apply BatchOps.groups_ofList
    · exact (KeyedMap.nodup_keys_toList _).map treeKeyToU256_injective
    · intro p
      rw [List.mem_map]
      constructor
      · rintro ⟨key, hmem, rfl⟩
        obtain ⟨e, he, hcanon⟩ := KeyedMap.mem_keys_groupBy.mp hmem
        obtain ⟨i, hi, rfl⟩ := List.mem_map.mp he
        have hi := List.mem_range.mp hi
        refine ⟨i, hi, ?_⟩
        rw [BatchOps.idx_zero, ← hcanon, hkey i hi]
      · rintro ⟨i, hi, rfl⟩
        refine ⟨o.key i, KeyedMap.mem_keys_groupBy.mpr ⟨_, List.mem_map.mpr
          ⟨i, List.mem_range.mpr hi, rfl⟩, hkey i hi⟩, (o.idx_zero i).symm⟩

theorem groups_toList {β : Type} {o : BatchOps} {d : ℕ} {f : ℕ → β} {map : KeyedMap ℕ (List β)}
    (h : map.Groups (o.idx d) (List.range o.count) f) :
    map.toList = (map.toList.map Prod.fst).map fun p => (p, (o.touch d p).map f) := by
  rw [List.map_map]
  conv_lhs => rw [← List.map_id map.toList]
  apply List.map_congr_left
  rintro ⟨p, items⟩ he
  have hget := BatchOps.groups_getD h p
  rw [KeyedMap.mem_toList.mp he, Option.getD_some] at hget
  exact congrArg (Prod.mk p) hget

/-- The updates of all nodes are as many as the operations. -/
theorem sum_lengths {β : Type} {o : BatchOps} {d : ℕ} {f : ℕ → β} {map : KeyedMap ℕ (List β)}
    (h : map.Groups (o.idx d) (List.range o.count) f) :
    (map.toList.map fun update => update.2.length).sum = o.count := by
  have hkeys (p : ℕ) : p ∈ map.toList.map Prod.fst ↔ ∃ i < o.count, o.idx d i = p := by
    constructor
    · intro hp
      obtain ⟨⟨q, items⟩, he, rfl⟩ := List.mem_map.mp hp
      rw [KeyedMap.mem_toList, h q] at he
      split_ifs at he with hnil
      obtain ⟨i, hi⟩ := List.exists_mem_of_ne_nil _ hnil
      exact ⟨i, o.mem_touch.mp hi⟩
    · rintro ⟨i, hi, rfl⟩
      exact List.mem_map.mpr
        ⟨_, KeyedMap.mem_toList.mpr (h.lookup_of_mem (List.mem_range.mpr hi)), rfl⟩
  have hperm := BatchOps.flatMap_touch_perm map.nodup_keys_toList hkeys
  have hlen := hperm.length_eq
  rw [List.length_range, List.length_flatMap] at hlen
  rw [groups_toList h, List.map_map]
  simpa [Function.comp_def] using hlen

/-- Appending each row to the group of its operation. -/
theorem foldlM_groups {n : ℕ} (rows : List (ℕ × HashTrace Row)) (hrows : ∀ e ∈ rows, e.1 < n)
    (group : ℕ → List (HashTrace Row)) :
    rows.foldlM (fun groups item =>
      if item.1 < groups.length then
        (.ok (groups.modify item.1 fun g => g ++ [item.2]) : Except Fault _)
      else .error (.panic "index out of bounds")) ((List.range n).map group) =
      .ok ((List.range n).map fun i =>
        group i ++ (rows.filter fun e => e.1 = i).map Prod.snd) := by
  induction rows generalizing group with
  | nil => simp [pure, Except.pure]
  | cons e rows ih =>
    have he : e.1 < n := hrows e (by simp)
    have hmem : e.1 ∈ List.range n := List.mem_range.mpr he
    have hpos : (List.range n).idxOf e.1 = e.1 := by
      have hlen : e.1 < (List.range n).length := by simpa using he
      have hidx := (List.nodup_range (n := n)).idxOf_getElem e.1 hlen
      rwa [List.getElem_range] at hidx
    have hmod : ((List.range n).map group).modify e.1 (fun g => g ++ [e.2]) =
        (List.range n).map fun i => if i = e.1 then group i ++ [e.2] else group i := by
      have hm := Seq.modify_idxOf List.nodup_range hmem group fun g => g ++ [e.2]
      rwa [hpos] at hm
    rw [List.foldlM_cons, List.length_map, List.length_range, if_pos he, hmod]
    refine (ih (fun e' he' => hrows e' (by simp [he'])) _).trans ?_
    congr 1
    apply List.map_congr_left
    intro i _
    by_cases hi : e.1 = i
    · simp [hi]
    · simp [hi, Ne.symm hi]

theorem groupTraces_eq {hasher : Hasher Row} {o : BatchOps} {hashTrace : List (ℕ × HashTrace Row)}
    {d : ℕ} (h : o.TraceInv hasher m d hashTrace) :
    groupTraces o.count hashTrace = .ok ((List.range o.count).flatMap fun i =>
      (List.range d).map fun level => o.traceAt hasher m level i) := by
  have hinit : List.replicate o.count ([] : List (HashTrace Row)) =
      (List.range o.count).map fun _ => [] := by simp
  rw [groupTraces, hinit, foldlM_groups hashTrace h.1]
  simp only [bind, Except.bind, pure, Except.pure, List.flatMap_def]
  congr 2
  apply List.map_congr_left
  intro i hi
  rw [h.2 i (List.mem_range.mp hi), List.map_map]
  rfl

end AccountTree

end OlaOs
