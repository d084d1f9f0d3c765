import Mathlib.Data.List.Basic

/-! Broadcast channels: their operations, what the users of a channel rely on, and a ring buffer
that does it. -/
namespace Broadcast

variable {α C R : Type}

/-- What a receiver gets; at `empty` it waits. -/
inductive Recv (α : Type) where
  | message (value : α)
  | lagged (skipped : ℕ)
  | closed
  | empty

/-- The operations on a channel. `C` is the state that its handles share, `R` is a receiver. A new
channel has one sender; a value can be refused. -/
structure Api (α C R : Type) where
  channel : ℕ → C
  cloneSender : C → C
  dropSender : C → C
  subscribe : C → R × C
  dropReceiver : C → R → C
  send : C → α → Option C
  recv : C → R → Recv α × R × C

/-- What the users of a channel know of it: all messages so far, and the handles. -/
structure View (α : Type) where
  capacity : ℕ
  sent : List α
  senders : ℕ
  receivers : ℕ

/-- What a receiver gets that has seen the first `position` messages, and how many it has seen then:
the next message, or, when that is gone, the number of those before the oldest that is kept. -/
inductive Receives (view : View α) (position : ℕ) : Recv α → ℕ → Prop where
  | message {value : α} : view.sent[position]? = some value →
      view.sent.length ≤ position + view.capacity →
      Receives view position (.message value) (position + 1)
  | lagged {skipped : ℕ} : 0 < skipped →
      position + skipped + view.capacity = view.sent.length →
      Receives view position (.lagged skipped) (position + skipped)
  | closed : position = view.sent.length → view.senders = 0 →
      Receives view position .closed position
  | empty : position = view.sent.length → 0 < view.senders →
      Receives view position .empty position

/-- A channel keeps at least the messages of its capacity. Every receiver has its own position,
from the messages sent after it subscribed on; a value is refused only without receivers. -/
structure Api.Lawful (api : Api α C R) (holds : C → View α → Prop) (position : R → ℕ) : Prop where
  channel : ∀ {capacity}, 0 < capacity → ∃ actual, capacity ≤ actual ∧
    holds (api.channel capacity) ⟨actual, [], 1, 0⟩
  cloneSender : ∀ {c view}, holds c view → 0 < view.senders →
    holds (api.cloneSender c) { view with senders := view.senders + 1 }
  dropSender : ∀ {c view}, holds c view → 0 < view.senders →
    holds (api.dropSender c) { view with senders := view.senders - 1 }
  subscribe : ∀ {c view}, holds c view → position (api.subscribe c).1 = view.sent.length ∧
    holds (api.subscribe c).2 { view with receivers := view.receivers + 1 }
  dropReceiver : ∀ {c view r}, holds c view → 0 < view.receivers →
    holds (api.dropReceiver c r) { view with receivers := view.receivers - 1 }
  send : ∀ {c view value}, holds c view → 0 < view.receivers →
    ∃ c', api.send c value = some c' ∧ holds c' { view with sent := view.sent ++ [value] }
  send_none : ∀ {c view value}, holds c view → view.receivers = 0 → api.send c value = none
  recv : ∀ {c view r}, holds c view → 0 < view.receivers → position r ≤ view.sent.length →
    Receives view (position r) (api.recv c r).1 (position (api.recv c r).2.1) ∧
      holds (api.recv c r).2.2 view

section

variable {view : View α} {position position' : ℕ} {result : Recv α}

/-- A receiver that is not more than the capacity behind gets its next message. -/
theorem Receives.exists_message (h : Receives view position result position')
    (hlt : position < view.sent.length) (hnear : view.sent.length ≤ position + view.capacity) :
    result = .message view.sent[position] ∧ position' = position + 1 := by
  cases h with
  | message hget _ =>
    rw [List.getElem?_eq_getElem hlt] at hget
    cases hget
    exact ⟨rfl, rfl⟩
  | lagged hpos hlength => omega
  | closed heq _ => omega
  | empty heq _ => omega

theorem Receives.message_inv {value : α} (h : Receives view position (.message value) position') :
    view.sent[position]? = some value ∧ position' = position + 1 := by
  cases h with
  | message hget _ => exact ⟨hget, rfl⟩

theorem Receives.lagged_inv {skipped : ℕ} (h : Receives view position (.lagged skipped) position') :
    0 < skipped ∧ position + skipped + view.capacity = view.sent.length := by
  cases h with
  | lagged hpos hlength => exact ⟨hpos, hlength⟩

/-- A receiver that waits has seen all messages. -/
theorem Receives.position_eq (h : Receives view position .empty position') :
    position = view.sent.length := by
  cases h with
  | empty heq _ => exact heq

end

/-- A ring buffer with the messages from number `first` on. -/
structure Ring (α : Type) where
  capacity : ℕ
  buffer : List α
  first : ℕ
  senders : ℕ
  receivers : ℕ

namespace Ring

/-- A full buffer loses its first message. -/
def push (c : Ring α) (value : α) : Ring α :=
  if c.buffer.length < c.capacity then { c with buffer := c.buffer ++ [value] }
  else { c with buffer := c.buffer.tail ++ [value], first := c.first + 1 }

/-- A receiver is the number of its next message. -/
def recv (c : Ring α) (position : ℕ) : Recv α × ℕ × Ring α :=
  if position < c.first then (.lagged (c.first - position), c.first, c)
  else match c.buffer[position - c.first]? with
    | some value => (.message value, position + 1, c)
    | none => (if c.senders = 0 then .closed else .empty, position, c)

def api : Api α (Ring α) ℕ where
  channel capacity := ⟨capacity, [], 0, 1, 0⟩
  cloneSender c := { c with senders := c.senders + 1 }
  dropSender c := { c with senders := c.senders - 1 }
  subscribe c := (c.first + c.buffer.length, { c with receivers := c.receivers + 1 })
  dropReceiver c _ := { c with receivers := c.receivers - 1 }
  send c value := if c.receivers = 0 then none else some (c.push value)
  recv := recv

structure Holds (c : Ring α) (view : View α) : Prop where
  capacity : c.capacity = view.capacity
  pos : 0 < c.capacity
  senders : c.senders = view.senders
  receivers : c.receivers = view.receivers
  buffer : c.buffer = view.sent.drop c.first
  first_le : c.first ≤ view.sent.length
  length_le : view.sent.length ≤ c.first + c.capacity
  full : 0 < c.first → view.sent.length = c.first + c.capacity

variable {c : Ring α} {view : View α}

theorem Holds.length (h : Holds c view) : c.buffer.length = view.sent.length - c.first := by
  rw [h.buffer, List.length_drop]

theorem Holds.push (h : Holds c view) (value : α) :
    Holds (c.push value) { view with sent := view.sent ++ [value] } := by
  have hlength := h.length
  have hfirst := h.first_le
  have hle := h.length_le
  have hpos := h.pos
  have happend : (view.sent ++ [value]).length = view.sent.length + 1 := by simp
  unfold Ring.push
  split_ifs with hroom
  · refine ⟨h.capacity, hpos, h.senders, h.receivers, ?_, by dsimp only; omega,
      by dsimp only; omega, fun hfirst' => ?_⟩
    · rw [List.drop_append_of_le_length hfirst, ← h.buffer]
    · have hfull := h.full hfirst'
      dsimp only at hfirst' ⊢
      omega
  · have hlt : c.first < view.sent.length := by omega
    refine ⟨h.capacity, hpos, h.senders, h.receivers, ?_, by dsimp only; omega,
      by dsimp only; omega, fun _ => by dsimp only; omega⟩
    rw [h.buffer, List.tail_drop, List.drop_append_of_le_length hlt]

theorem Holds.recv (h : Holds c view) {position : ℕ} (hle : position ≤ view.sent.length) :
    Receives view position (c.recv position).1 (c.recv position).2.1 ∧
      Holds (c.recv position).2.2 view := by
  have hcapacity := h.capacity
  have hlength := h.length_le
  unfold Ring.recv
  by_cases hlagged : position < c.first
  · rw [if_pos hlagged]
    have hfull := h.full (by omega)
    have hlagged : Receives view position (.lagged (c.first - position))
        (position + (c.first - position)) := .lagged (by omega) (by omega)
    rw [Nat.add_sub_cancel' (by omega)] at hlagged
    exact ⟨hlagged, h⟩
  · have hget : c.buffer[position - c.first]? = view.sent[position]? := by
      rw [h.buffer, List.getElem?_drop, Nat.add_sub_cancel' (Nat.le_of_not_lt hlagged)]
    rw [if_neg hlagged, hget]
    cases hnext : view.sent[position]? with
    | some value => exact ⟨.message hnext (by omega), h⟩
    | none =>
      have hend : position = view.sent.length := by
        have hover := List.getElem?_eq_none_iff.mp hnext
        omega
      have hsenders := h.senders
      dsimp only
      split_ifs with hclosed
      · exact ⟨.closed hend (by omega), h⟩
      · exact ⟨.empty hend (by omega), h⟩

theorem api_lawful : (api : Api α (Ring α) ℕ).Lawful Holds id where
  channel {capacity} hpos := ⟨capacity, Nat.le_refl _, rfl, hpos, rfl, rfl, rfl, Nat.le_refl 0,
    Nat.zero_le _, fun h => absurd h (Nat.lt_irrefl 0)⟩
  cloneSender h _ := { h with senders := congrArg (· + 1) h.senders }
  dropSender h _ := { h with senders := congrArg (· - 1) h.senders }
  subscribe {c view} h := by
    have hlength := h.length
    have hfirst := h.first_le
    refine ⟨?_, { h with receivers := congrArg (· + 1) h.receivers }⟩
    show c.first + c.buffer.length = view.sent.length
    omega
  dropReceiver h _ := { h with receivers := congrArg (· - 1) h.receivers }
  send {c view value} h hpos := by
    have hreceivers := h.receivers
    exact ⟨c.push value, if_neg (by omega), h.push value⟩
  send_none {c view value} h hzero := by
    have hreceivers := h.receivers
    exact if_pos (by omega)
  recv h _ hle := h.recv hle

end Ring

end Broadcast
