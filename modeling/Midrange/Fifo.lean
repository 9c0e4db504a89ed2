namespace Midrange

/-- Values that leave in the order in which they came. The ones that came last are held apart, the
    latest first, so that both ends are at hand. -/
structure Fifo (α : Type) where
  front : List α := []
  rear : List α := []
  deriving Repr

namespace Fifo

variable {α : Type}

/-- The values in the order in which they came. -/
def toList (queue : Fifo α) : List α :=
  queue.front ++ queue.rear.reverse

def push (queue : Fifo α) (value : α) : Fifo α :=
  { queue with rear := value :: queue.rear }

/-- The value that came first, and the others. -/
def pop? (queue : Fifo α) : Option (α × Fifo α) :=
  match queue.front with
  | value :: front => some (value, { queue with front })
  | [] =>
    match queue.rear.reverse with
    | value :: front => some (value, { front })
    | [] => none

@[simp]
theorem toList_push (queue : Fifo α) (value : α) :
    (queue.push value).toList = queue.toList ++ [value] := by
  simp [toList, push]

theorem pop?_eq_none_iff {queue : Fifo α} : queue.pop? = none ↔ queue.toList = [] := by
  obtain ⟨front, rear⟩ := queue
  cases front with
  | cons value front => simp [pop?, toList]
  | nil => cases hrear : rear.reverse <;> simp [pop?, toList, hrear]

theorem toList_of_pop?_eq_some {queue rest : Fifo α} {value : α}
    (hpop : queue.pop? = some (value, rest)) : queue.toList = value :: rest.toList := by
  obtain ⟨front, rear⟩ := queue
  cases front with
  | cons first front =>
    simp only [pop?, Option.some.injEq, Prod.mk.injEq] at hpop
    obtain ⟨rfl, rfl⟩ := hpop
    rfl
  | nil =>
    simp only [pop?] at hpop
    split at hpop
    next first front hrear =>
      simp only [Option.some.injEq, Prod.mk.injEq] at hpop
      obtain ⟨rfl, rfl⟩ := hpop
      simp [toList, hrear]
    next => cases hpop

end Fifo

end Midrange
