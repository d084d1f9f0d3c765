import Mathlib.Data.String.Basic
import OlaOs.Lib.OrderedMap
import OlaOs.Types.Basic

/-! The type encoding of typed structures (`types/src/tx/primitives/eip712_signature`). -/
namespace OlaOs

/-- A member of a structure, with the members inside it. -/
structure EncodedStructureMember where
  memberType : String
  name : String
  isReferenceType : Bool
  innerMembers : List EncodedStructureMember

namespace EncodedStructureMember

/-- One member in the encoding of a type. -/
def declaration (member : EncodedStructureMember) : String :=
  member.memberType ++ " " ++ member.name

def getEncodedType (member : EncodedStructureMember) : String :=
  let encodedType := member.memberType ++ "("
  let encodedType := match member.innerMembers with
    | [] => encodedType
    | first :: members =>
      members.foldl (fun encoded m => encoded ++ "," ++ m.declaration)
        (encodedType ++ first.declaration)
  encodedType ++ ")"

end EncodedStructureMember

namespace OuterTypeBuilder

/-- `OuterTypeBuilder::add_member`, for all members of a structure. -/
def addMembers (members : List EncodedStructureMember) : List EncodedStructureMember :=
  members.filter EncodedStructureMember.isReferenceType

/-- The members of a type that are new when it is recorded. -/
def newMembers (result : OrderedMap String EncodedStructureMember)
    (members : List EncodedStructureMember) : List EncodedStructureMember :=
  members.filter fun m => m.isReferenceType && (result.get? m.memberType).isNone

/-- The members that are queued for a type are smaller than it. -/
theorem sizeOf_newMembers_lt (result : OrderedMap String EncodedStructureMember)
    (front : EncodedStructureMember) :
    ((newMembers result front.innerMembers).map sizeOf).sum < sizeOf front := by
  have hfilter (p : EncodedStructureMember → Bool) (members : List EncodedStructureMember) :
      ((members.filter p).map sizeOf).sum < sizeOf members := by
    induction members with
    | nil => exact Nat.one_pos
    | cons m members ih =>
      rw [List.filter_cons, List.cons.sizeOf_spec]
      split_ifs
      · rw [List.map_cons, List.sum_cons]
        omega
      · omega
  obtain ⟨memberType, name, isReferenceType, innerMembers⟩ := front
  have hlt := hfilter (fun m => m.isReferenceType && (result.get? m.memberType).isNone) innerMembers
  rw [EncodedStructureMember.mk.sizeOf_spec]
  exact Nat.lt_of_lt_of_le hlt (Nat.le_add_left _ _)

/-- The loop of `build`; a member that is queued is smaller than the one it comes from. -/
def build (queue : List EncodedStructureMember)
    (result : OrderedMap String EncodedStructureMember) :
    OrderedMap String EncodedStructureMember :=
  match queue with
  | [] => result
  | front :: queue =>
    if (result.get? front.memberType).isSome then build queue result
    else
      let result := result.insert front.memberType front
      build (queue ++ newMembers result front.innerMembers) result
termination_by (queue.map sizeOf).sum
decreasing_by
  · rw [List.map_cons, List.sum_cons]
    have hpos : 0 < sizeOf front := Nat.zero_lt_of_lt (sizeOf_newMembers_lt result front)
    omega
  · rw [List.map_append, List.sum_append, List.map_cons, List.sum_cons, Nat.add_comm]
    exact Nat.add_lt_add_right (sizeOf_newMembers_lt _ front) _

end OuterTypeBuilder

/-- The members of a structure with the encodings of their values. -/
structure EncodeBuilder where
  members : List (EncodedStructureMember × H256)

namespace EncodeBuilder

def memberList (builder : EncodeBuilder) : List EncodedStructureMember :=
  builder.members.map Prod.fst

/-- The structure itself as a member. -/
def innerMember (builder : EncodeBuilder) (typeName : String) : EncodedStructureMember :=
  ⟨typeName, "", true, builder.memberList⟩

def encodeType (builder : EncodeBuilder) (typeName : String) : String :=
  let outerMembers := OuterTypeBuilder.build (OuterTypeBuilder.addMembers builder.memberList) .empty
  outerMembers.toList.foldl (fun result e => result ++ e.2.getEncodedType)
    (builder.innerMember typeName).getEncodedType

end EncodeBuilder

/-- The structures that the members of a structure reach. -/
inductive Reachable (members : List EncodedStructureMember) : EncodedStructureMember → Prop where
  | member {m : EncodedStructureMember} : m ∈ members → m.isReferenceType = true →
      Reachable members m
  | inner {outer m : EncodedStructureMember} : Reachable members outer → m ∈ outer.innerMembers →
      m.isReferenceType = true → Reachable members m

namespace OuterTypeBuilder

/-- Is the type recorded, or about to be? -/
def Covered (queue : List EncodedStructureMember)
    (result : OrderedMap String EncodedStructureMember) (name : String) : Prop :=
  (∃ m, (name, m) ∈ result.toList) ∨ ∃ m ∈ queue, m.memberType = name

/-- The state of the loop: what is recorded or queued is reachable, and the types of the members of
the structure, and of those of every recorded type, are recorded or queued. -/
structure Collects (members queue : List EncodedStructureMember)
    (result : OrderedMap String EncodedStructureMember) : Prop where
  recorded : ∀ e ∈ result.toList, Reachable members e.2 ∧ e.2.memberType = e.1
  queued : ∀ m ∈ queue, Reachable members m
  members : ∀ m ∈ members, m.isReferenceType = true → Covered queue result m.memberType
  inner : ∀ e ∈ result.toList, ∀ m ∈ e.2.innerMembers, m.isReferenceType = true →
    Covered queue result m.memberType

variable {members queue : List EncodedStructureMember} {front : EncodedStructureMember}
  {result : OrderedMap String EncodedStructureMember}

theorem collects_start : Collects members (addMembers members) .empty where
  recorded _ he := nomatch he
  queued _ hm := .member (List.mem_filter.mp hm).1 (List.mem_filter.mp hm).2
  members m hm href := .inr ⟨m, List.mem_filter.mpr ⟨hm, href⟩, rfl⟩
  inner _ he := nomatch he

/-- A type that is recorded already is skipped. -/
theorem Collects.skip (h : Collects members (front :: queue) result)
    (hfound : (result.get? front.memberType).isSome = true) : Collects members queue result := by
  have hcovered {name : String} (hname : Covered (front :: queue) result name) :
      Covered queue result name := by
    rcases hname with hrecorded | ⟨m, hm, rfl⟩
    · exact .inl hrecorded
    · rcases List.mem_cons.mp hm with rfl | hm
      · exact .inl (OrderedMap.get?_isSome.mp hfound)
      · exact .inr ⟨m, hm, rfl⟩
  exact ⟨h.recorded, fun m hm => h.queued m (List.mem_cons_of_mem front hm),
    fun m hm href => hcovered (h.members m hm href),
    fun e he m hm href => hcovered (h.inner e he m hm href)⟩

/-- A new type is recorded, and its members are queued. -/
theorem Collects.record (h : Collects members (front :: queue) result)
    (hnew : ¬ (result.get? front.memberType).isSome = true) :
    Collects members
      (queue ++ newMembers (result.insert front.memberType front) front.innerMembers)
      (result.insert front.memberType front) := by
  have hfront : Reachable members front := h.queued front List.mem_cons_self
  have hkeep {e : String × EncodedStructureMember} (he : e ∈ result.toList) :
      e ∈ (result.insert front.memberType front).toList := by
    refine OrderedMap.mem_insert.mpr (.inr ⟨fun heq => hnew ?_, he⟩)
    exact OrderedMap.get?_isSome.mpr ⟨e.2, by rw [← heq]; exact he⟩
  have hcovered {name : String} (hname : Covered (front :: queue) result name) :
      Covered (queue ++ newMembers (result.insert front.memberType front) front.innerMembers)
        (result.insert front.memberType front) name := by
    rcases hname with ⟨m, hm⟩ | ⟨m, hm, rfl⟩
    · exact .inl ⟨m, hkeep hm⟩
    · rcases List.mem_cons.mp hm with rfl | hm
      · exact .inl ⟨_, OrderedMap.mem_insert.mpr (.inl rfl)⟩
      · exact .inr ⟨m, List.mem_append_left _ hm, rfl⟩
  refine ⟨fun e he => ?_, fun m hm => ?_, fun m hm href => hcovered (h.members m hm href),
    fun e he m hm href => ?_⟩
  · rcases OrderedMap.mem_insert.mp he with rfl | ⟨-, he⟩
    · exact ⟨hfront, rfl⟩
    · exact h.recorded e he
  · rcases List.mem_append.mp hm with hm | hm
    · exact h.queued m (List.mem_cons_of_mem front hm)
    · obtain ⟨hm, hkept⟩ := List.mem_filter.mp hm
      exact .inner hfront hm (Bool.and_eq_true _ _ ▸ hkept).1
  · rcases OrderedMap.mem_insert.mp he with rfl | ⟨-, he⟩
    · cases hget : (result.insert front.memberType front).get? m.memberType with
      | none =>
        refine .inr ⟨m, List.mem_append_right _ (List.mem_filter.mpr ⟨hm, ?_⟩), rfl⟩
        rw [href, hget]
        rfl
      | some recorded =>
        exact .inl (OrderedMap.get?_isSome.mp (by rw [hget]; rfl))
    · exact hcovered (h.inner e he m hm href)

/-- What the loop leaves when the queue is empty. -/
theorem Collects.build (h : Collects members queue result) :
    Collects members [] (build queue result) := by
  fun_induction OuterTypeBuilder.build queue result with
  | case1 result => exact h
  | case2 result front queue hfound ih => exact ih (h.skip hfound)
  | case3 result front queue hnew result' ih => exact ih (h.record hnew)

/-- The type of every reachable structure is recorded. -/
theorem Collects.complete (h : Collects members [] result)
    (hsame : ∀ a b, Reachable members a → Reachable members b → a.memberType = b.memberType →
      a.innerMembers = b.innerMembers) {m : EncodedStructureMember} (hm : Reachable members m) :
    ∃ recorded, (m.memberType, recorded) ∈ result.toList := by
  have hrecorded {name : String} (hname : Covered [] result name) :
      ∃ recorded, (name, recorded) ∈ result.toList := by
    rcases hname with hname | ⟨_, hm, _⟩
    · exact hname
    · cases hm
  induction hm with
  | member hm href => exact hrecorded (h.members _ hm href)
  | @inner outer m houter hm href ih =>
    obtain ⟨recorded, hmem⟩ := ih
    obtain ⟨hreachable, htype⟩ := h.recorded _ hmem
    refine hrecorded (h.inner _ hmem m ?_ href)
    rw [hsame recorded outer hreachable houter htype]
    exact hm

end OuterTypeBuilder

theorem getEncodedType_congr {a b : EncodedStructureMember} (htype : a.memberType = b.memberType)
    (hinner : a.innerMembers = b.innerMembers) : a.getEncodedType = b.getEncodedType := by
  unfold EncodedStructureMember.getEncodedType
  rw [htype, hinner]

theorem foldl_append_eq {α : Type} (f : α → String) (l : List α) (start : String) :
    l.foldl (fun result a => result ++ f a) start = start ++ String.join (l.map f) := by
  induction l generalizing start with
  | nil => simp
  | cons a l ih => rw [List.foldl_cons, ih, List.map_cons, String.join_cons, String.append_assoc]

namespace EncodeBuilder

/-- The encoding of a type: the structure, then the structures that it reaches, each once and by
name. -/
theorem encodeType_eq (builder : EncodeBuilder) (typeName : String)
    (hsame : ∀ a b, Reachable builder.memberList a → Reachable builder.memberList b →
      a.memberType = b.memberType → a.innerMembers = b.innerMembers)
    (hprimary : ∀ a, Reachable builder.memberList a → a.memberType ≠ typeName) :
    ∃ outer : List EncodedStructureMember,
      builder.encodeType typeName = (builder.innerMember typeName).getEncodedType ++
        String.join (outer.map EncodedStructureMember.getEncodedType) ∧
      outer.Pairwise (fun a b => a.memberType < b.memberType) ∧
      typeName ∉ outer.map EncodedStructureMember.memberType ∧
      (∀ o ∈ outer, Reachable builder.memberList o) ∧
      ∀ m, Reachable builder.memberList m →
        ∃ o ∈ outer, o.memberType = m.memberType ∧ o.getEncodedType = m.getEncodedType := by
  have hstart : OuterTypeBuilder.Collects builder.memberList
      (OuterTypeBuilder.addMembers builder.memberList) .empty := OuterTypeBuilder.collects_start
  have hcollects := hstart.build
  unfold encodeType
  generalize OuterTypeBuilder.build (OuterTypeBuilder.addMembers builder.memberList) .empty =
    result at hcollects ⊢
  have hreachable : ∀ o ∈ result.toList.map Prod.snd, Reachable builder.memberList o := by
    intro o ho
    obtain ⟨e, he, rfl⟩ := List.mem_map.mp ho
    exact (hcollects.recorded e he).1
  refine ⟨result.toList.map Prod.snd, ?_, ?_, ?_, hreachable, fun m hm => ?_⟩
  · rw [List.map_map]
    exact foldl_append_eq (EncodedStructureMember.getEncodedType ∘ Prod.snd) _ _
  · refine List.pairwise_map.mpr (result.sorted.imp_of_mem fun {a b} ha hb hab => ?_)
    rw [(hcollects.recorded a ha).2, (hcollects.recorded b hb).2]
    exact hab
  · intro hmem
    obtain ⟨o, ho, htype⟩ := List.mem_map.mp hmem
    exact hprimary o (hreachable o ho) htype
  · obtain ⟨recorded, hmem⟩ := hcollects.complete hsame hm
    obtain ⟨hrecorded, htype⟩ := hcollects.recorded _ hmem
    exact ⟨recorded, List.mem_map_of_mem hmem, htype,
      getEncodedType_congr htype (hsame recorded m hrecorded hm htype)⟩

def sampleAccount : EncodedStructureMember :=
  ⟨"Account", "wallet", true, [⟨"uint256", "id", false, []⟩]⟩

def samplePerson (name : String) : EncodedStructureMember :=
  ⟨"Person", name, true, [⟨"string", "name", false, []⟩, sampleAccount]⟩

/-- A message with two persons, who have an account each. -/
def sampleMail : EncodeBuilder where
  members := [(samplePerson "from", .zero), (samplePerson "to", .zero),
    (⟨"string", "contents", false, []⟩, .zero)]

theorem reachable_sampleMail {a : EncodedStructureMember} (h : Reachable sampleMail.memberList a) :
    (a.memberType = "Person" ∧ a.innerMembers = (samplePerson "").innerMembers) ∨
      (a.memberType = "Account" ∧ a.innerMembers = sampleAccount.innerMembers) := by
  induction h with
  | member hm href =>
    rcases List.mem_cons.mp hm with rfl | hm
    · exact .inl ⟨rfl, rfl⟩
    rcases List.mem_cons.mp hm with rfl | hm
    · exact .inl ⟨rfl, rfl⟩
    rcases List.mem_singleton.mp hm with rfl
    cases href
  | inner _ hm href ih =>
    rcases ih with ⟨-, hinner⟩ | ⟨-, hinner⟩
    · rw [hinner] at hm
      rcases List.mem_cons.mp hm with rfl | hm
      · cases href
      rcases List.mem_singleton.mp hm with rfl
      exact .inr ⟨rfl, rfl⟩
    · rw [hinner] at hm
      rcases List.mem_singleton.mp hm with rfl
      cases href

theorem encodeType_eq_sample : ∃ outer : List EncodedStructureMember,
    sampleMail.encodeType "Mail" = "Mail(Person from,Person to,string contents)" ++
      String.join (outer.map EncodedStructureMember.getEncodedType) ∧
    ∃ o ∈ outer, o.getEncodedType = "Account(uint256 id)" := by
  obtain ⟨outer, heq, -, -, -, hall⟩ := encodeType_eq sampleMail "Mail"
    (fun a b ha hb htype => by
      rcases reachable_sampleMail ha with ⟨ha, hainner⟩ | ⟨ha, hainner⟩ <;>
        rcases reachable_sampleMail hb with ⟨hb, hbinner⟩ | ⟨hb, hbinner⟩
      · exact hainner.trans hbinner.symm
      · exact absurd (ha.symm.trans (htype.trans hb)) (by decide)
      · exact absurd (ha.symm.trans (htype.trans hb)) (by decide)
      · exact hainner.trans hbinner.symm)
    (fun a ha heq => by
      rcases reachable_sampleMail ha with ⟨ha, -⟩ | ⟨ha, -⟩
      · exact absurd (ha.symm.trans heq) (by decide)
      · exact absurd (ha.symm.trans heq) (by decide))
  have hperson : Reachable sampleMail.memberList (samplePerson "from") :=
    .member List.mem_cons_self rfl
  obtain ⟨o, ho, -, hencoded⟩ := hall sampleAccount
    (.inner hperson (List.mem_cons_of_mem _ List.mem_cons_self) rfl)
  exact ⟨outer, heq, o, ho, hencoded⟩

end EncodeBuilder

end OlaOs
