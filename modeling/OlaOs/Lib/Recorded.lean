import OlaOs.Lib.Seq

/-! Computations that can fail and that record the calls they make, up to the failure. Forgetting
the calls gives the computation itself. -/

structure Recorded (κ ε α : Type) where
  result : Except ε α
  calls : List κ

namespace Recorded

variable {κ ε α β σ : Type}

def lift (x : Except ε α) : Recorded κ ε α := ⟨x, []⟩

def record (call : κ) : Recorded κ ε Unit := ⟨.ok (), [call]⟩

def bind (x : Recorded κ ε α) (f : α → Recorded κ ε β) : Recorded κ ε β :=
  match x.result with
  | .ok a => ⟨(f a).result, x.calls ++ (f a).calls⟩
  | .error e => ⟨.error e, x.calls⟩

instance instMonad : Monad (Recorded κ ε) where
  pure a := ⟨.ok a, []⟩
  bind := bind

instance instLawfulMonad : LawfulMonad (Recorded κ ε) := LawfulMonad.mk' (Recorded κ ε)
  (by
    rintro α ⟨e | a, calls⟩
    · rfl
    · exact congrArg (Recorded.mk _) (List.append_nil calls))
  (fun _ _ => rfl)
  (by
    rintro α β γ ⟨e | a, calls⟩ f g
    · rfl
    · rcases h : f a with ⟨e | b, calls'⟩ <;> simp [Bind.bind, bind, h])

@[simp] theorem result_pure (a : α) : (pure a : Recorded κ ε α).result = .ok a := rfl

@[simp] theorem result_lift (x : Except ε α) : (lift x : Recorded κ ε α).result = x := rfl

@[simp] theorem result_record (call : κ) : (record call : Recorded κ ε Unit).result = .ok () := rfl

@[simp] theorem result_bind (x : Recorded κ ε α) (f : α → Recorded κ ε β) :
    (x >>= f).result = x.result >>= fun a => (f a).result := by
  rcases x with ⟨e | a, calls⟩ <;> rfl

@[simp] theorem result_map (f : α → β) (x : Recorded κ ε α) :
    (f <$> x).result = f <$> x.result := by
  rcases x with ⟨e | a, calls⟩ <;> rfl

@[simp] theorem result_mapM (f : α → Recorded κ ε β) (l : List α) :
    (l.mapM f).result = l.mapM fun a => (f a).result := by
  induction l with
  | nil => rfl
  | cons a l ih => simp [List.mapM_cons, ih]

@[simp] theorem result_foldlM (f : σ → α → Recorded κ ε σ) (l : List α) (s : σ) :
    (l.foldlM f s).result = l.foldlM (fun s a => (f s a).result) s := by
  induction l generalizing s with
  | nil => rfl
  | cons a l ih => simp [List.foldlM_cons, ih]

/-- What happens after a call does not take it back. -/
theorem mem_bind_left {x : Recorded κ ε α} (f : α → Recorded κ ε β) {call : κ}
    (h : call ∈ x.calls) : call ∈ (x >>= f).calls := by
  rcases x with ⟨e | a, calls⟩
  · exact h
  · exact List.mem_append_left _ h

theorem mem_bind_right {x : Recorded κ ε α} {f : α → Recorded κ ε β} {a : α} {call : κ}
    (hx : x.result = .ok a) (h : call ∈ (f a).calls) : call ∈ (x >>= f).calls := by
  rcases x with ⟨_, calls⟩
  cases hx
  exact List.mem_append_right _ h

/-- A map that returns has made the calls for each of its arguments. -/
theorem mem_mapM {f : α → Recorded κ ε β} {l : List α} {l' : List β}
    (h : (l.mapM f).result = .ok l') {a : α} (ha : a ∈ l) {call : κ} (hcall : call ∈ (f a).calls) :
    call ∈ (l.mapM f).calls := by
  induction l generalizing l' with
  | nil => cases ha
  | cons b l ih =>
    rw [List.mapM_cons] at h ⊢
    rw [result_bind] at h
    obtain ⟨c, hc, h⟩ := Seq.bind_eq_ok.mp h
    rw [result_bind] at h
    obtain ⟨rest, hrest, -⟩ := Seq.bind_eq_ok.mp h
    rcases List.mem_cons.mp ha with rfl | ha
    · exact mem_bind_left _ hcall
    · exact mem_bind_right hc (mem_bind_left _ (ih hrest ha))

/-- Every recorded call meets `P`. -/
def All (P : κ → Prop) (x : Recorded κ ε α) : Prop := ∀ call ∈ x.calls, P call

variable {P : κ → Prop}

theorem all_pure (a : α) : All P (pure a : Recorded κ ε α) := nofun

theorem all_lift (x : Except ε α) : All P (lift x : Recorded κ ε α) := nofun

theorem all_record {call : κ} (h : P call) : All P (record call : Recorded κ ε Unit) := by
  intro call' hcall'
  rwa [List.mem_singleton.mp hcall']

theorem All.bind {x : Recorded κ ε α} {f : α → Recorded κ ε β} (hx : All P x)
    (hf : ∀ a, x.result = .ok a → All P (f a)) : All P (x >>= f) := by
  rcases x with ⟨e | a, calls⟩
  · exact hx
  · intro call hcall
    rcases List.mem_append.mp hcall with hcall | hcall
    · exact hx call hcall
    · exact hf a rfl call hcall

theorem All.mapM {f : α → Recorded κ ε β} {l : List α} (h : ∀ a ∈ l, All P (f a)) :
    All P (l.mapM f) := by
  induction l with
  | nil => exact all_pure []
  | cons a l ih =>
    rw [List.mapM_cons]
    refine (h a List.mem_cons_self).bind fun b _ => ?_
    exact (ih fun a' ha' => h a' (List.mem_cons_of_mem a ha')).bind fun _ _ => all_pure _

/-- A loop over `0, 1, …`, with an invariant for the state before each step. -/
theorem All.foldlM_range {f : σ → ℕ → Recorded κ ε σ} (inv : ℕ → σ → Prop) {n : ℕ}
    (hall : ∀ d s, inv d s → All P (f s d))
    (hinv : ∀ d s s', inv d s → (f s d).result = .ok s' → inv (d + 1) s') {s : σ} (hs : inv 0 s) :
    All P ((List.range n).foldlM f s) ∧
      ∀ s', ((List.range n).foldlM f s).result = .ok s' → inv n s' := by
  induction n with
  | zero =>
    refine ⟨all_pure s, fun s' hs' => ?_⟩
    cases hs'
    exact hs
  | succ n ih =>
    obtain ⟨hfront, hmid⟩ := ih
    rw [List.range_succ, List.foldlM_append]
    constructor
    · refine hfront.bind fun s' hs' => ?_
      exact (hall n s' (hmid s' hs')).bind fun _ _ => all_pure _
    · intro s' hs'
      rw [result_bind] at hs'
      obtain ⟨s₁, hs₁, hs'⟩ := Seq.bind_eq_ok.mp hs'
      rw [List.foldlM_cons, result_bind] at hs'
      obtain ⟨s₂, hs₂, hs'⟩ := Seq.bind_eq_ok.mp hs'
      cases hs'
      exact hinv n s₁ _ (hmid s₁ hs₁) hs₂

end Recorded
