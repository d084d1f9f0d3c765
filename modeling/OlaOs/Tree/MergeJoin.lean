import Mathlib.Data.Nat.Notation
import Mathlib.Data.List.Basic

/-! `MergeJoinWithMaxPredecessor` (`merkle_tree/src/iter_ext`) as an explicit iterator. -/
namespace OlaOs

variable {α π : Type*}

/-- State of the iterator; the two peekable inputs are the lists of items still to come. -/
structure MergeJoinWithMaxPredecessor (α π : Type*) where
  leftIter : List α
  rightIter : List α
  last : Option (α ⊕ α)
  lastLeft : Option π
  lastRight : Option π

namespace MergeJoinWithMaxPredecessor

def new (leftIter rightIter : List α) : MergeJoinWithMaxPredecessor α π :=
  ⟨leftIter, rightIter, none, none, none⟩

/-- What `choose` returns, together with the two advanced inputs. -/
structure Choice (α π : Type*) where
  item : Option (α ⊕ α)
  lastFirst : Option π
  lastSecond : Option π
  firstIter : List α
  secondIter : List α

def choose (mapF : α → π) (cmpF : α → α → Ordering) (item : α) (firstIter secondIter : List α) :
    Choice α π :=
  let ordering :=
    match firstIter.head?, secondIter.head? with
    | some first, some second => cmpF first second
    | _, _ => .lt
  match ordering with
  | .lt => ⟨firstIter.head?.map .inl, some (mapF item), none, firstIter.tail, secondIter⟩
  | .eq => ⟨firstIter.head?.map .inl, none, none, firstIter.tail, secondIter⟩
  | .gt =>
    let next :=
      match secondIter.head? with
      | some lastItem =>
        (if (cmpF item lastItem).isEq then none else some (mapF item),
          if (cmpF item lastItem).isLT then some (mapF lastItem) else none)
      | none => (none, none)
    ⟨secondIter.head?.map .inr, next.1, next.2, firstIter, secondIter.tail⟩

/-- The pick at the start, and again whenever the input of the last item has run dry. -/
def refill (cmpF : α → α → Ordering) (s : MergeJoinWithMaxPredecessor α π) :
    MergeJoinWithMaxPredecessor α π :=
  match s.last with
  | some _ => s
  | none =>
    let takeRight : Bool :=
      match s.leftIter.head?, s.rightIter.head? with
      | some l, some r => (cmpF l r).isGT
      | l, _ => l.isNone
    if takeRight then
      { s with last := s.rightIter.head?.map .inr, rightIter := s.rightIter.tail }
    else
      { s with last := s.leftIter.head?.map .inl, leftIter := s.leftIter.tail }

def next (mapF : α → π) (cmpF : α → α → Ordering) (s : MergeJoinWithMaxPredecessor α π) :
    Option (α × Option π) × MergeJoinWithMaxPredecessor α π :=
  let s := s.refill cmpF
  match s.last with
  | none => (none, s)
  | some (.inl left) =>
    let c := choose mapF cmpF left s.leftIter s.rightIter
    (some (left, s.lastRight),
      ⟨c.firstIter, c.secondIter, c.item, c.lastFirst.or s.lastLeft, c.lastSecond.or s.lastRight⟩)
  | some (.inr right) =>
    let c := choose mapF cmpF right s.rightIter s.leftIter
    (some (right, s.lastLeft),
      ⟨c.secondIter, c.firstIter, c.item.map Sum.swap, c.lastSecond.or s.lastLeft,
        c.lastFirst.or s.lastRight⟩)

def collectFuel (mapF : α → π) (cmpF : α → α → Ordering) :
    ℕ → MergeJoinWithMaxPredecessor α π → List (α × Option π)
  | 0, _ => []
  | n + 1, s =>
    match next mapF cmpF s with
    | (none, _) => []
    | (some x, s') => x :: collectFuel mapF cmpF n s'

/-- All items of the iterator: it emits at most one item for each input item. -/
def collect (mapF : α → π) (cmpF : α → α → Ordering) (left right : List α) :
    List (α × Option π) :=
  collectFuel mapF cmpF (left.length + right.length + 1) (new left right)

end MergeJoinWithMaxPredecessor

/-- The plain merge of two lists, pairing each item with the last one emitted from the other
list. -/
def mergeWithLast (mapF : α → π) (cmpF : α → α → Ordering) (pl pr : Option π) :
    List α → List α → List (α × Option π)
  | [], [] => []
  | l :: left, [] => (l, pr) :: mergeWithLast mapF cmpF (some (mapF l)) pr left []
  | [], r :: right => (r, pl) :: mergeWithLast mapF cmpF pl (some (mapF r)) [] right
  | l :: left, r :: right =>
    if cmpF l r = .lt then
      (l, pr) :: mergeWithLast mapF cmpF (some (mapF l)) pr left (r :: right)
    else
      (r, pl) :: mergeWithLast mapF cmpF pl (some (mapF r)) (l :: left) right

namespace MergeJoinWithMaxPredecessor

/-- The iterator stands before the inputs `left` and `right`, the items already emitted having
left the predecessors `pl` and `pr`. An item taken out ahead of time is the smaller head; the
predecessor on its own side is rewritten when it is emitted, so nothing is said about it. -/
inductive Before (cmpF : α → α → Ordering) :
    MergeJoinWithMaxPredecessor α π → Option π → Option π → List α → List α → Prop
  | idle (pl pr left right) : Before cmpF ⟨left, right, none, pl, pr⟩ pl pr left right
  | left (x left right pl any pr) (hx : ∀ r ∈ right.head?, cmpF x r = .lt) :
      Before cmpF ⟨left, right, some (.inl x), any, pr⟩ pl pr (x :: left) right
  | right (x left right pl any pr) (hx : ∀ l ∈ left.head?, cmpF x l = .lt) :
      Before cmpF ⟨left, right, some (.inr x), pl, any⟩ pl pr left (x :: right)

variable {mapF : α → π} {cmpF : α → α → Ordering}

theorem Before.refill {s : MergeJoinWithMaxPredecessor α π} {pl pr : Option π}
    {left right : List α} (hswap : ∀ a b, cmpF b a = (cmpF a b).swap)
    (hne : ∀ l ∈ left, ∀ r ∈ right, cmpF l r ≠ .eq) (h : Before cmpF s pl pr left right) :
    Before cmpF (s.refill cmpF) pl pr left right := by
  cases h with
  | left x left right pl any pr hx => exact .left x left right pl any pr hx
  | right x left right pl any pr hx => exact .right x left right pl any pr hx
  | idle pl pr left right =>
    cases left with
    | nil =>
      cases right with
      | nil => exact .idle pl pr [] []
      | cons r right => exact .right r [] right pl pr pr (by simp)
    | cons l left =>
      cases right with
      | nil => exact .left l left [] pl pl pr (by simp)
      | cons r right =>
        cases hc : cmpF l r with
        | lt =>
          have := Before.left l left (r :: right) pl pl pr (by simpa using hc)
          simpa [MergeJoinWithMaxPredecessor.refill, hc] using this
        | eq => exact absurd hc (hne l (by simp) r (by simp))
        | gt =>
          have hrl : cmpF r l = .lt := by rw [hswap l r, hc]; rfl
          have := Before.right r (l :: left) right pl pr pr (by simpa using hrl)
          simpa [MergeJoinWithMaxPredecessor.refill, hc] using this

/-- What `choose` does with an item that precedes everything left: it always hands on the item
as the predecessor on its own side, and looks ahead to the smaller of the two heads. -/
theorem choose_cases (mapF : α → π) {x : α} (first second : List α)
    (hswap : ∀ a b, cmpF b a = (cmpF a b).swap)
    (hne : ∀ f ∈ first, ∀ s ∈ second, cmpF f s ≠ .eq)
    (hx : ∀ s ∈ second.head?, cmpF x s = .lt) :
    (first = [] ∧ choose mapF cmpF x first second = ⟨none, some (mapF x), none, [], second⟩) ∨
    (∃ f first', first = f :: first' ∧ (∀ s ∈ second.head?, cmpF f s = .lt) ∧
      choose mapF cmpF x first second = ⟨some (.inl f), some (mapF x), none, first', second⟩) ∨
    (∃ s second', second = s :: second' ∧ (∀ f ∈ first.head?, cmpF s f = .lt) ∧
      choose mapF cmpF x first second =
        ⟨some (.inr s), some (mapF x), some (mapF s), first, second'⟩) := by
  cases first with
  | nil =>
    left
    exact ⟨rfl, by simp [choose]⟩
  | cons f first' =>
    right
    cases second with
    | nil => exact .inl ⟨f, first', rfl, by simp, by simp [choose]⟩
    | cons s second' =>
      have hxs : cmpF x s = .lt := hx s (by simp)
      cases hc : cmpF f s with
      | lt => exact .inl ⟨f, first', rfl, by simpa using hc, by simp [choose, hc]⟩
      | eq => exact absurd hc (hne f (by simp) s (by simp))
      | gt =>
        have hsf : cmpF s f = .lt := by rw [hswap f s, hc]; rfl
        exact .inr ⟨s, second', rfl, by simpa using hsf, by simp [choose, hc, hxs]⟩

/-- One call of `next` emits the head of the merge and stands before the rest of it. -/
theorem Before.next (mapF : α → π) {s : MergeJoinWithMaxPredecessor α π} {pl pr : Option π}
    {left right : List α} (hswap : ∀ a b, cmpF b a = (cmpF a b).swap)
    (hne : ∀ l ∈ left, ∀ r ∈ right, cmpF l r ≠ .eq) (h : Before cmpF s pl pr left right) :
    (left = [] ∧ right = [] ∧ (next mapF cmpF s).1 = none) ∨
    (∃ l left', left = l :: left' ∧ (∀ r ∈ right.head?, cmpF l r = .lt) ∧
      (next mapF cmpF s).1 = some (l, pr) ∧
      Before cmpF (next mapF cmpF s).2 (some (mapF l)) pr left' right) ∨
    (∃ r right', right = r :: right' ∧ (∀ l ∈ left.head?, cmpF r l = .lt) ∧
      (next mapF cmpF s).1 = some (r, pl) ∧
      Before cmpF (next mapF cmpF s).2 pl (some (mapF r)) left right') := by
  have hr := h.refill hswap hne
  have hrefill : (s.refill cmpF).last = none → left = [] ∧ right = [] := by
    intro hl
    cases h with
    | left => simp [MergeJoinWithMaxPredecessor.refill] at hl
    | right => simp [MergeJoinWithMaxPredecessor.refill] at hl
    | idle pl pr left right =>
      cases left <;> cases right <;> simp [MergeJoinWithMaxPredecessor.refill] at hl ⊢
      split_ifs at hl
  unfold MergeJoinWithMaxPredecessor.next
  generalize s.refill cmpF = s' at hr hrefill
  cases hr with
  | idle pl pr left right => exact .inl ⟨(hrefill rfl).1, (hrefill rfl).2, rfl⟩
  | left x left right pl any pr hx =>
    refine .inr (.inl ⟨x, left, rfl, hx, rfl, ?_⟩)
    obtain ⟨rfl, hc⟩ | ⟨f, left', rfl, hf, hc⟩ | ⟨y, right', rfl, hy, hc⟩ :=
      choose_cases mapF left right hswap (fun l hl => hne l (List.mem_cons_of_mem x hl)) hx
    · simpa [hc] using @Before.idle α π cmpF (some (mapF x)) pr [] right
    · simpa [hc] using Before.left f left' right (some (mapF x)) (some (mapF x)) pr hf
    · simpa [hc] using Before.right y left right' (some (mapF x)) (some (mapF y)) pr hy
  | right x left right pl any pr hx =>
    refine .inr (.inr ⟨x, right, rfl, hx, rfl, ?_⟩)
    have hne' : ∀ r ∈ right, ∀ l ∈ left, cmpF r l ≠ .eq := by
      intro r hr l hl he
      apply hne l hl r (by simp [hr])
      rw [hswap r l, he]
      rfl
    obtain ⟨rfl, hc⟩ | ⟨f, right', rfl, hf, hc⟩ | ⟨y, left', rfl, hy, hc⟩ :=
      choose_cases mapF right left hswap hne' hx
    · simpa [hc] using @Before.idle α π cmpF pl (some (mapF x)) left []
    · simpa [hc] using Before.right f left right' pl (some (mapF x)) (some (mapF x)) hf
    · simpa [hc] using Before.left y left' right pl (some (mapF y)) (some (mapF x)) hy

theorem collectFuel_succ_none {s : MergeJoinWithMaxPredecessor α π} {n : ℕ}
    (h : (next mapF cmpF s).1 = none) : collectFuel mapF cmpF (n + 1) s = [] := by
  rw [collectFuel]
  generalize next mapF cmpF s = r at h
  obtain ⟨r1, r2⟩ := r
  obtain rfl : r1 = none := h
  rfl

theorem collectFuel_succ_some {s : MergeJoinWithMaxPredecessor α π} {n : ℕ} {x : α × Option π}
    (h : (next mapF cmpF s).1 = some x) :
    collectFuel mapF cmpF (n + 1) s = x :: collectFuel mapF cmpF n (next mapF cmpF s).2 := by
  rw [collectFuel]
  generalize next mapF cmpF s = r at h
  obtain ⟨r1, r2⟩ := r
  obtain rfl : r1 = some x := h
  rfl

/-- The iterator is the plain merge, for inputs of any lengths and any alternation. -/
theorem collectFuel_eq {s : MergeJoinWithMaxPredecessor α π} {pl pr : Option π}
    {left right : List α} {n : ℕ} (hswap : ∀ a b, cmpF b a = (cmpF a b).swap)
    (hne : ∀ l ∈ left, ∀ r ∈ right, cmpF l r ≠ .eq) (hn : left.length + right.length < n)
    (h : Before cmpF s pl pr left right) :
    collectFuel mapF cmpF n s = mergeWithLast mapF cmpF pl pr left right := by
  induction n generalizing s pl pr left right with
  | zero => omega
  | succ n ih =>
    obtain ⟨rfl, rfl, hnext⟩ | ⟨l, left', rfl, hl, hnext, hb⟩ | ⟨r, right', rfl, hr, hnext, hb⟩ :=
      h.next mapF hswap hne
    · rw [collectFuel_succ_none hnext, mergeWithLast]
    · have hrest := ih (fun a ha => hne a (by simp [ha])) (by simp at hn; omega) hb
      have hm : mergeWithLast mapF cmpF pl pr (l :: left') right =
          (l, pr) :: mergeWithLast mapF cmpF (some (mapF l)) pr left' right := by
        cases right with
        | nil => rw [mergeWithLast]
        | cons r right => rw [mergeWithLast, if_pos (hl r (by simp))]
      rw [hm, ← hrest, collectFuel_succ_some hnext]
    · have hrest := ih (fun a ha b hb' => hne a ha b (by simp [hb'])) (by simp at hn; omega) hb
      have hm : mergeWithLast mapF cmpF pl pr left (r :: right') =
          (r, pl) :: mergeWithLast mapF cmpF pl (some (mapF r)) left right' := by
        cases left with
        | nil => rw [mergeWithLast]
        | cons l left =>
          have hlr : cmpF l r ≠ .lt := by
            rw [hswap r l, hr l (by simp)]
            decide
          rw [mergeWithLast, if_neg hlr]
      rw [hm, ← hrest, collectFuel_succ_some hnext]

theorem collect_eq_merge {left right : List α} (hswap : ∀ a b, cmpF b a = (cmpF a b).swap)
    (hne : ∀ l ∈ left, ∀ r ∈ right, cmpF l r ≠ .eq) :
    collect mapF cmpF left right = mergeWithLast mapF cmpF none none left right :=
  collectFuel_eq hswap hne (by omega) (.idle none none left right)

end MergeJoinWithMaxPredecessor

/-- The greatest item of a list that is smaller than `x`, if there is one. -/
def IsMaxPredecessor (cmpF : α → α → Ordering) (x : α) (items : List α) : Option α → Prop
  | none => ∀ a ∈ items, cmpF a x ≠ .lt
  | some p => p ∈ items ∧ cmpF p x = .lt ∧ ∀ a ∈ items, cmpF a x = .lt → cmpF a p ≠ .gt

section Predecessors

variable {mapF : α → π} {cmpF : α → α → Ordering}

/-- The last item before `x` in a list that goes on with larger ones. -/
theorem isMaxPredecessor_getLast? [Std.TransCmp cmpF] {x : α} {done rest : List α}
    (hsorted : done.Pairwise fun a b => cmpF a b = .lt) (hdone : ∀ a ∈ done, cmpF a x = .lt)
    (hrest : ∀ a ∈ rest, cmpF x a = .lt) :
    IsMaxPredecessor cmpF x (done ++ rest) done.getLast? := by
  have hnot : ∀ a ∈ rest, cmpF a x ≠ .lt := by
    intro a ha hlt
    have hswap : cmpF a x = (cmpF x a).swap := Std.OrientedCmp.eq_swap
    rw [hswap, hrest a ha] at hlt
    cases hlt
  cases hlast : done.getLast? with
  | none =>
    rw [List.getLast?_eq_none_iff] at hlast
    subst hlast
    exact hnot
  | some p =>
    have hp := List.mem_of_getLast? hlast
    refine ⟨List.mem_append_left _ hp, hdone p hp, fun a ha hlt => ?_⟩
    rcases List.mem_append.mp ha with ha | ha
    · obtain ⟨init, rfl⟩ := List.getLast?_eq_some_iff.mp hlast
      rcases List.mem_append.mp ha with ha | ha
      · rw [(List.pairwise_append.mp hsorted).2.2 a ha p (List.mem_singleton_self p)]
        exact nofun
      · have hself : cmpF p p = .eq := Std.ReflCmp.compare_self
        rw [List.mem_singleton.mp ha, hself]
        exact nofun
    · exact absurd hlt (hnot a ha)

/-- A merge of `left` and `right` in order, each item with its predecessor among the items of the
other list, of which `doneLeft` and `doneRight` come before the merge. -/
structure Merged (mapF : α → π) (cmpF : α → α → Ordering) (doneLeft doneRight left right : List α)
    (merged : List (α × Option π)) : Prop where
  perm : (merged.map Prod.fst).Perm (left ++ right)
  sorted : (merged.map Prod.fst).Pairwise fun a b => cmpF a b = .lt
  predecessors : ∀ e ∈ merged,
    (e.1 ∈ left ∧ ∃ p, e.2 = p.map mapF ∧ IsMaxPredecessor cmpF e.1 (doneRight ++ right) p) ∨
      (e.1 ∈ right ∧ ∃ p, e.2 = p.map mapF ∧ IsMaxPredecessor cmpF e.1 (doneLeft ++ left) p)

variable {doneLeft doneRight left right : List α} {merged : List (α × Option π)}

theorem Merged.symm (h : Merged mapF cmpF doneLeft doneRight left right merged) :
    Merged mapF cmpF doneRight doneLeft right left merged where
  perm := h.perm.trans List.perm_append_comm
  sorted := h.sorted
  predecessors e he := (h.predecessors e he).symm

/-- An item of the left list that comes before all others. -/
theorem Merged.cons [Std.TransCmp cmpF] {l : α}
    (h : Merged mapF cmpF (doneLeft ++ [l]) doneRight left right merged)
    (hleft : (doneLeft ++ l :: left).Pairwise fun a b => cmpF a b = .lt)
    (hright : (doneRight ++ right).Pairwise fun a b => cmpF a b = .lt)
    (hfirst : ∀ r ∈ right, cmpF l r = .lt) (hdone : ∀ a ∈ doneRight, cmpF a l = .lt) :
    Merged mapF cmpF doneLeft doneRight (l :: left) right
      ((l, doneRight.getLast?.map mapF) :: merged) where
  perm := h.perm.cons l
  sorted := by
    refine List.pairwise_cons.mpr ⟨fun a ha => ?_, h.sorted⟩
    rcases List.mem_append.mp (h.perm.mem_iff.mp ha) with ha | ha
    · exact (List.pairwise_cons.mp (List.pairwise_append.mp hleft).2.1).1 a ha
    · exact hfirst a ha
  predecessors e he := by
    rcases List.mem_cons.mp he with rfl | he
    · have hsorted := (List.pairwise_append.mp hright).1
      exact .inl ⟨List.mem_cons_self, _, rfl, isMaxPredecessor_getLast? hsorted hdone hfirst⟩
    · refine (h.predecessors e he).imp (fun ⟨hmem, hp⟩ => ⟨List.mem_cons_of_mem l hmem, hp⟩) ?_
      rintro ⟨hmem, p, hp, hmax⟩
      rw [List.append_assoc, List.singleton_append] at hmax
      exact ⟨hmem, p, hp, hmax⟩

/-- The first item of a sorted list comes before what its other items come after. -/
theorem lt_of_lt_head [Std.TransCmp cmpF] {x r : α} {rest : List α} (hlt : cmpF x r = .lt)
    (hsorted : (r :: rest).Pairwise fun a b => cmpF a b = .lt) :
    ∀ a ∈ r :: rest, cmpF x a = .lt := by
  intro a ha
  rcases List.mem_cons.mp ha with rfl | ha
  · exact hlt
  · exact Std.TransCmp.lt_trans hlt ((List.pairwise_cons.mp hsorted).1 a ha)

theorem merged_mergeWithLast [Std.TransCmp cmpF]
    (hleft : (doneLeft ++ left).Pairwise fun a b => cmpF a b = .lt)
    (hright : (doneRight ++ right).Pairwise fun a b => cmpF a b = .lt)
    (hne : ∀ l ∈ left, ∀ r ∈ right, cmpF l r ≠ .eq)
    (hdoneLeft : ∀ a ∈ doneLeft, ∀ r ∈ right, cmpF a r = .lt)
    (hdoneRight : ∀ a ∈ doneRight, ∀ l ∈ left, cmpF a l = .lt) {pl pr : Option π}
    (hpl : doneLeft.getLast?.map mapF = pl) (hpr : doneRight.getLast?.map mapF = pr) :
    Merged mapF cmpF doneLeft doneRight left right
      (mergeWithLast mapF cmpF pl pr left right) := by
  have hlast (done : List α) (x : α) : (done ++ [x]).getLast?.map mapF = some (mapF x) := by
    rw [List.getLast?_concat, Option.map_some]
  fun_induction mergeWithLast mapF cmpF pl pr left right generalizing doneLeft doneRight with
  | case1 => exact ⟨.refl [], .nil, nofun⟩
  | case2 pl pr l left ih =>
    subst hpr
    refine Merged.cons (ih (by simpa using hleft) hright (fun _ _ _ h => nomatch h)
      (fun _ _ _ h => nomatch h) (fun a ha b hb => ?_) (hlast doneLeft l) rfl) hleft hright nofun
      fun a ha => ?_
    · exact hdoneRight a ha b (List.mem_cons_of_mem l hb)
    · exact hdoneRight a ha l List.mem_cons_self
  | case3 pl pr r right ih =>
    subst hpl
    refine (Merged.cons (ih hleft (by simpa using hright) nofun (fun a ha b hb => ?_) nofun
      rfl (hlast doneRight r)).symm hright hleft nofun fun a ha => ?_).symm
    · exact hdoneLeft a ha b (List.mem_cons_of_mem r hb)
    · exact hdoneLeft a ha r List.mem_cons_self
  | case4 pl pr l left r right hlt ih =>
    subst hpr
    have hfirst := lt_of_lt_head hlt (List.pairwise_append.mp hright).2.1
    refine Merged.cons (ih (by simpa using hleft) hright (fun a ha => ?_) (fun a ha b hb => ?_)
      (fun a ha b hb => ?_) (hlast doneLeft l) rfl) hleft hright hfirst fun a ha => ?_
    · exact hne a (List.mem_cons_of_mem l ha)
    · rcases List.mem_append.mp ha with ha | ha
      · exact hdoneLeft a ha b hb
      · rw [List.mem_singleton.mp ha]
        exact hfirst b hb
    · exact hdoneRight a ha b (List.mem_cons_of_mem l hb)
    · exact hdoneRight a ha l List.mem_cons_self
  | case5 pl pr l left r right hlt ih =>
    subst hpl
    have hrl : cmpF r l = .lt := by
      have hlr := hne l List.mem_cons_self r List.mem_cons_self
      have hswap : cmpF r l = (cmpF l r).swap := Std.OrientedCmp.eq_swap
      rw [hswap]
      cases hcmp : cmpF l r with
      | lt => exact absurd hcmp hlt
      | eq => exact absurd hcmp hlr
      | gt => rfl
    have hfirst := lt_of_lt_head hrl (List.pairwise_append.mp hleft).2.1
    refine (Merged.cons (ih hleft (by simpa using hright) (fun a ha b hb => ?_)
      (fun a ha b hb => ?_) (fun a ha b hb => ?_) rfl (hlast doneRight r)).symm hright hleft
      hfirst fun a ha => ?_).symm
    · exact hne a ha b (List.mem_cons_of_mem r hb)
    · exact hdoneLeft a ha b (List.mem_cons_of_mem r hb)
    · rcases List.mem_append.mp ha with ha | ha
      · exact hdoneRight a ha b hb
      · rw [List.mem_singleton.mp ha]
        exact hfirst b hb
    · exact hdoneLeft a ha r List.mem_cons_self

namespace MergeJoinWithMaxPredecessor

/-- The iterator stops after the items of both inputs, in order; each comes with the greatest
smaller item of the other input. -/
theorem collect_merged [Std.TransCmp cmpF] {left right : List α}
    (hleft : left.Pairwise fun a b => cmpF a b = .lt)
    (hright : right.Pairwise fun a b => cmpF a b = .lt)
    (hne : ∀ l ∈ left, ∀ r ∈ right, cmpF l r ≠ .eq) :
    (∀ n, left.length + right.length < n →
      collectFuel mapF cmpF n (new left right) = collect mapF cmpF left right) ∧
    ((collect mapF cmpF left right).map Prod.fst).Perm (left ++ right) ∧
    ((collect mapF cmpF left right).map Prod.fst).Pairwise (fun a b => cmpF a b = .lt) ∧
    ∀ e ∈ collect mapF cmpF left right,
      (e.1 ∈ left ∧ ∃ p, e.2 = p.map mapF ∧ IsMaxPredecessor cmpF e.1 right p) ∨
        (e.1 ∈ right ∧ ∃ p, e.2 = p.map mapF ∧ IsMaxPredecessor cmpF e.1 left p) := by
  have hswap (a b : α) : cmpF b a = (cmpF a b).swap := Std.OrientedCmp.eq_swap
  have hmerged : Merged mapF cmpF [] [] left right (collect mapF cmpF left right) := by
    rw [collect_eq_merge hswap hne]
    exact merged_mergeWithLast hleft hright hne (List.forall_mem_nil _) (List.forall_mem_nil _)
      rfl rfl
  refine ⟨fun n hn => ?_, hmerged.perm, hmerged.sorted, hmerged.predecessors⟩
  rw [collect_eq_merge hswap hne]
  exact collectFuel_eq hswap hne hn (.idle none none left right)

/-- Two inputs that alternate in blocks, one of them exhausted first. -/
theorem collect_merged_sample :
    collect id compare [1, 2, 6] [3, 5, 7, 8] = [(1, none), (2, none), (3, some 2), (5, some 2),
      (6, some 5), (7, some 6), (8, some 6)] ∧
    ∀ e ∈ collect id compare [1, 2, 6] [3, 5, 7, 8],
      (e.1 ∈ [1, 2, 6] ∧ ∃ p, e.2 = p.map id ∧ IsMaxPredecessor compare e.1 [3, 5, 7, 8] p) ∨
        (e.1 ∈ [3, 5, 7, 8] ∧ ∃ p, e.2 = p.map id ∧ IsMaxPredecessor compare e.1 [1, 2, 6] p) :=
  ⟨by decide, (collect_merged (by decide) (by decide) (by decide)).2.2.2⟩

end MergeJoinWithMaxPredecessor

end Predecessors

/-- Merging the two sides of a list split by a flag walks the list itself, remembering the last
item seen on each side. -/
def annotate (mapF : α → π) (side : α → Bool) (pl pr : Option π) : List α → List (α × Option π)
  | [] => []
  | a :: as =>
    if side a then (a, pl) :: annotate mapF side pl (some (mapF a)) as
    else (a, pr) :: annotate mapF side (some (mapF a)) pr as

theorem mergeWithLast_filter {mapF : α → π} {cmpF : α → α → Ordering} (side : α → Bool)
    (l : List α) (hl : l.Pairwise (fun a b => cmpF a b = .lt))
    (hswap : ∀ a b, cmpF b a = (cmpF a b).swap) (pl pr : Option π) :
    mergeWithLast mapF cmpF pl pr (l.filter fun a => !side a) (l.filter side) =
      annotate mapF side pl pr l := by
  induction l generalizing pl pr with
  | nil => simp [annotate, mergeWithLast]
  | cons a as ih =>
    obtain ⟨ha, has⟩ := List.pairwise_cons.mp hl
    by_cases hs : side a
    · have hstep : mergeWithLast mapF cmpF pl pr (as.filter fun b => !side b)
          (a :: as.filter side) =
          (a, pl) :: mergeWithLast mapF cmpF pl (some (mapF a)) (as.filter fun b => !side b)
            (as.filter side) := by
        cases hf : as.filter fun b => !side b with
        | nil => rw [mergeWithLast]
        | cons b bs =>
          have hb : b ∈ as := (List.mem_filter.mp (hf ▸ List.mem_cons_self)).1
          have hba : cmpF b a ≠ .lt := by
            rw [hswap a b, ha b hb]
            decide
          rw [mergeWithLast, if_neg hba]
      simp [hs, hstep, annotate, ih has]
    · have hstep : mergeWithLast mapF cmpF pl pr (a :: as.filter fun b => !side b)
          (as.filter side) =
          (a, pr) :: mergeWithLast mapF cmpF (some (mapF a)) pr (as.filter fun b => !side b)
            (as.filter side) := by
        cases hf : as.filter side with
        | nil => rw [mergeWithLast]
        | cons b bs =>
          have hb : b ∈ as := (List.mem_filter.mp (hf ▸ List.mem_cons_self)).1
          rw [mergeWithLast, if_pos (ha b hb)]
      simp [hs, hstep, annotate, ih has]

end OlaOs
