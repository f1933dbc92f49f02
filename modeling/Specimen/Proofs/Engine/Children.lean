import Specimen.Engine.Basic
/-!
# The children of a node

Counts of the children that a handler asks for, and the places that the engine gives them: ready
children only take a place in the arena, the others are queued as well.
-/

namespace Specimen

/-- How many of the children have to be made. -/
def queuedCount : List Child → Nat
  | [] => 0
  | .ready _ :: rest => queuedCount rest
  | .queued _ :: rest => queuedCount rest + 1

@[simp] theorem queuedCount_nil : queuedCount [] = 0 := rfl

@[simp] theorem queuedCount_ready (v : Json) (rest : List Child) :
    queuedCount (.ready v :: rest) = queuedCount rest := rfl

@[simp] theorem queuedCount_queued (s : Spec) (rest : List Child) :
    queuedCount (.queued s :: rest) = queuedCount rest + 1 := rfl

@[simp] theorem queuedCount_append (xs ys : List Child) :
    queuedCount (xs ++ ys) = queuedCount xs + queuedCount ys := by
  induction xs with
  | nil => simp
  | cons c rest ih =>
      cases c <;> simp [ih]
      omega

@[simp] theorem queuedCount_replicate (n : Nat) (s : Spec) :
    queuedCount (List.replicate n (.queued s)) = n := by
  induction n with
  | zero => rfl
  | succ n ih => simp [List.replicate_succ, ih]

theorem Sequence.admitted_le (room : Option Nat) (length : Nat) :
    admitted room length ≤ length := by
  unfold admitted
  split
  · exact Nat.le_refl _
  · exact Nat.min_le_right _ _

theorem accommodate_of_fits {room : Option Nat} {children : List Child}
    (h : ∀ n ∈ room, queuedCount children ≤ n) : accommodate room children = (children, 0) := by
  cases room with
  | none => cases children <;> rfl
  | some n =>
      replace h := h n rfl
      induction children generalizing n with
      | nil => rfl
      | cons c rest ih =>
          cases c with
          | ready v => simp [accommodate, ih n h]
          | queued s =>
              rw [queuedCount_queued] at h
              obtain ⟨m, rfl⟩ : ∃ m, n = m + 1 := ⟨n - 1, by omega⟩
              simp [accommodate, ih m (by omega)]

@[simp] theorem length_queuedIds (start : Nat) (children : List Child) :
    (queuedIds start children).length = queuedCount children := by
  induction children generalizing start with
  | nil => rfl
  | cons c rest ih => cases c <;> simp [queuedIds, ih]

theorem mem_queuedIds {start i : Nat} {children : List Child} :
    i ∈ queuedIds start children ↔ ∃ j s, children[j]? = some (.queued s) ∧ i = start + j := by
  induction children generalizing start with
  | nil => simp [queuedIds]
  | cons c rest ih =>
      constructor
      · intro h
        cases c with
        | ready v =>
            obtain ⟨j, s, hj, rfl⟩ := ih.1 h
            exact ⟨j + 1, s, hj, by omega⟩
        | queued s =>
            rcases List.mem_cons.1 h with rfl | h
            · exact ⟨0, s, rfl, rfl⟩
            · obtain ⟨j, s', hj, rfl⟩ := ih.1 h
              exact ⟨j + 1, s', hj, by omega⟩
      · rintro ⟨j, s, hj, rfl⟩
        cases j with
        | zero =>
            obtain rfl : c = .queued s := by simpa using hj
            exact List.mem_cons_self
        | succ j =>
            have := ih.2 ⟨j, s, hj, show start + (j + 1) = start + 1 + j by omega⟩
            cases c with
            | ready v => exact this
            | queued s' => exact List.mem_cons_of_mem _ this

theorem le_of_mem_queuedIds {start i : Nat} {children : List Child}
    (h : i ∈ queuedIds start children) : start ≤ i := by
  obtain ⟨j, s, -, rfl⟩ := mem_queuedIds.1 h
  omega

theorem nodup_queuedIds (start : Nat) (children : List Child) :
    (queuedIds start children).Nodup := by
  induction children generalizing start with
  | nil => exact List.nodup_nil
  | cons c rest ih =>
      cases c with
      | ready v => exact ih _
      | queued s =>
          refine List.nodup_cons.2 ⟨fun h => ?_, ih _⟩
          have := le_of_mem_queuedIds h
          omega

end Specimen
