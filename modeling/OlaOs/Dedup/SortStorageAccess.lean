import OlaOs.Types.LogQuery

/-! `sort_storage_access_queries` (`sequencer/io/sort_storage_access.rs`): the queries of a batch
are sorted by slot, and each slot is reduced to at most one query. Assertions that fail and
`unwrap` on `None` are errors; their messages also print the query, which is left out here. -/
namespace OlaOs

/-- `LogQueryLikeWithExtendedEnumeration` -/
structure EnumeratedQuery where
  rawQuery : LogQuery
  extendedTimestamp : U32
  deriving DecidableEq

/-- `StorageSlotHistoryKeeper`; the top of the stack is the head of the list. -/
structure StorageSlotHistoryKeeper where
  initialValue : Option U256 := none
  currentValue : Option U256 := none
  changesStack : List EnumeratedQuery := []
  didReadAtDepthZero : Bool := false

namespace SortStorageAccess

/-- The comparison of the sort. -/
def compareQueries (a b : EnumeratedQuery) : Ordering :=
  match compare a.rawQuery.shardId b.rawQuery.shardId with
  | .eq =>
    match compare a.rawQuery.address b.rawQuery.address with
    | .eq =>
      match compare a.rawQuery.key b.rawQuery.key with
      | .eq => compare a.extendedTimestamp b.extendedTimestamp
      | r => r
    | r => r
  | r => r

/-- The queries with their position `i as u32`. -/
def enumerateQueries (queries : List LogQuery) : List EnumeratedQuery :=
  queries.zipIdx.map fun (el, i) => ⟨el, Fin.ofNat (2 ^ 32) i⟩

/-- `par_sort_by`, a stable sort. -/
def sortQueries (queries : List LogQuery) : List EnumeratedQuery :=
  (enumerateQueries queries).mergeSort fun a b => (compareQueries a b).isLE

/-- Whether two queries are about one slot. -/
def sameSlot (candidate el : EnumeratedQuery) : Bool :=
  el.rawQuery.shardId = candidate.rawQuery.shardId &&
    el.rawQuery.address = candidate.rawQuery.address && el.rawQuery.key = candidate.rawQuery.key

/-- `assert_eq!` -/
def assertEq {α : Type} [DecidableEq α] (a b : α) : Except String Unit :=
  if a = b then .ok () else .error "invalid for query"

/-- `unwrap` -/
def unwrap {α : Type} : Option α → Except String α
  | some a => .ok a
  | none => .error "called `Option::unwrap()` on a `None` value"

/-- The first two blocks of the loop body: a first or explicit read at depth zero, and the
initial value of the slot. -/
def observe (history : StorageSlotHistoryKeeper) (el : EnumeratedQuery) :
    Except String StorageSlotHistoryKeeper :=
  match history.currentValue with
  | none =>
    if history.initialValue.isSome then .error "invalid for query"
    else if !el.rawQuery.rwFlag then
      .ok { history with
        didReadAtDepthZero := true
        initialValue := some el.rawQuery.readValue
        currentValue := some el.rawQuery.readValue }
    else if el.rawQuery.rollback then .error "assertion failed: !el.raw_query.rollback()"
    else
      .ok { history with
        initialValue := some el.rawQuery.readValue
        currentValue := some el.rawQuery.readValue }
  | some _ =>
    if !el.rawQuery.rwFlag && history.changesStack.isEmpty then
      .ok { history with didReadAtDepthZero := true }
    else .ok history

/-- The body of the loop over the queries of one slot. -/
def keepQuery (history : StorageSlotHistoryKeeper) (el : EnumeratedQuery) :
    Except String StorageSlotHistoryKeeper := do
  let history ← observe history el
  let currentValue ← unwrap history.currentValue
  if !el.rawQuery.rwFlag then
    assertEq el.rawQuery.readValue currentValue
    return history
  else if !el.rawQuery.rollback then
    assertEq el.rawQuery.readValue currentValue
    return { history with
      currentValue := some el.rawQuery.writtenValue
      changesStack := el :: history.changesStack }
  else
    let poppedChange ← unwrap history.changesStack.head?
    assertEq el.rawQuery.readValue poppedChange.rawQuery.readValue
    assertEq el.rawQuery.writtenValue poppedChange.rawQuery.writtenValue
    assertEq el.rawQuery.writtenValue currentValue
    assertEq el.rawQuery.shardId poppedChange.rawQuery.shardId
    assertEq el.rawQuery.address poppedChange.rawQuery.address
    assertEq el.rawQuery.key poppedChange.rawQuery.key
    return { history with
      currentValue := some el.rawQuery.readValue
      changesStack := history.changesStack.tail }

/-- The query that a slot is reduced to, if any. -/
def reduceSlot (candidate : EnumeratedQuery) (history : StorageSlotHistoryKeeper) :
    Except String (Option LogQuery) := do
  let initialValue ← unwrap history.initialValue
  let currentValue ← unwrap history.currentValue
  let sortedLogQuery := LogQuery.createPartiallyFilledFromFields candidate.rawQuery.shardId
    candidate.rawQuery.address candidate.rawQuery.key initialValue currentValue
  if !history.didReadAtDepthZero && history.changesStack.isEmpty then
    assertEq initialValue currentValue
    return none
  else if initialValue = currentValue then
    if history.didReadAtDepthZero then
      return some (sortedLogQuery false)
    else if !history.changesStack.isEmpty then
      return some (sortedLogQuery false)
    else
      return none
  else
    return some (sortedLogQuery true)

/-- The loop over the sorted queries, one slot at a time. -/
def deduplicate : List EnumeratedQuery → Except String (List LogQuery)
  | [] => .ok []
  | candidate :: rest => do
    let history ← ((candidate :: rest).takeWhile (sameSlot candidate)).foldlM keepQuery {}
    let query ← reduceSlot candidate history
    let queries ← deduplicate (rest.dropWhile (sameSlot candidate))
    return query.toList ++ queries
termination_by queries => queries.length
decreasing_by
  have hle : (rest.dropWhile (sameSlot candidate)).length ≤ rest.length :=
    (List.dropWhile_sublist _).length_le
  simp only [List.length_cons]
  omega

theorem deduplicate_nil : deduplicate [] = .ok [] := by
  unfold deduplicate
  rfl

/-- A round of the loop, once the rest is known. -/
theorem deduplicate_of_next {candidate : EnumeratedQuery} {rest : List EnumeratedQuery}
    {queries queries' : List LogQuery}
    (hnext : deduplicate (rest.dropWhile (sameSlot candidate)) = .ok queries)
    (hround : (do
      let history ← ((candidate :: rest).takeWhile (sameSlot candidate)).foldlM keepQuery {}
      let query ← reduceSlot candidate history
      return query.toList ++ queries) = (.ok queries' : Except String (List LogQuery))) :
    deduplicate (candidate :: rest) = .ok queries' := by
  rw [deduplicate, hnext]
  exact hround

end SortStorageAccess

/-- `sort_storage_access_queries` -/
def sortStorageAccessQueries (unsortedStorageQueries : List LogQuery) :
    Except String (List EnumeratedQuery × List LogQuery) := do
  let sortedStorageQueries := SortStorageAccess.sortQueries unsortedStorageQueries
  let deduplicatedStorageQueries ← SortStorageAccess.deduplicate sortedStorageQueries
  return (sortedStorageQueries, deduplicatedStorageQueries)

/-- Queries that are in the order of the sort. -/
theorem sortStorageAccessQueries_of_pairwise {queries deduplicated : List LogQuery}
    (hsorted : (SortStorageAccess.enumerateQueries queries).Pairwise
      fun a b => (SortStorageAccess.compareQueries a b).isLE)
    (h : SortStorageAccess.deduplicate (SortStorageAccess.enumerateQueries queries) =
      .ok deduplicated) :
    sortStorageAccessQueries queries =
      .ok (SortStorageAccess.enumerateQueries queries, deduplicated) := by
  rw [sortStorageAccessQueries, SortStorageAccess.sortQueries,
    List.mergeSort_of_pairwise hsorted, h]
  rfl

end OlaOs
