import Specimen.Handler.Basic
/-!
# Computations that stop at a fault

Some operations have no result for all operands: a range to draw from may have no values, a
difference may be negative, a place may hold no node. A plain computation goes on from there with
what the operation is extended by. A guarded one checks before each of them and stops with a
`Fault`. `Tracks` and `Agrees` say of a guarded draw and of a guarded action that they stop
nowhere and do the same as a plain one.
-/

namespace Specimen

open Specimen.Random

/-- An operation without a result. -/
inductive Fault where
  /-- A value is drawn from `low` to `high`, and there is none. -/
  | emptyRange (low high : Int)
  /-- A sum is too great for a word of 64 bits. -/
  | overflow (m n : Nat)
  /-- A difference is negative. -/
  | underflow (m n : Nat)
  /-- An integer is no word of 64 bits. -/
  | lossy (n : Int)
  /-- No node has this place in the arena. -/
  | noNode (id : Nat)
  /-- No scope has this place in the arena. -/
  | noScope (id : Nat)
  /-- A place, in bytes, lies outside a text or inside a character. -/
  | noSlice (text : String) (place : Nat)

/-- A computation that stops at a fault; otherwise it has a value, if the source lasts. -/
abbrev Guarded (α : Type) := OptionT (Except Fault) α

abbrev GuardedDraw (α : Type) := StateT Source Guarded α

abbrev GuardedAction (α : Type) := ExceptT Failure (StateT Supply Guarded) α

namespace Guarded

variable {α : Type}

def fault (f : Fault) : Guarded α := OptionT.mk (.error f)

/-- What has no operations to check. -/
def ofOption (o : Option α) : Guarded α := OptionT.mk (.ok o)

theorem ofOption_some (a : α) : ofOption (some a) = pure a := rfl

def ofDraw (d : Draw α) : GuardedDraw α := fun s => ofOption (d s)

def ofAction (a : Action α) : GuardedAction α := fun s => ofOption (a s)

/-! ## Checks -/

/-- Makes sure that there is something to draw from `low` to `high`. -/
def range (low high : Int) : Guarded Unit :=
  if low ≤ high then pure () else fault (.emptyRange low high)

def add (m n : Nat) : Guarded Nat :=
  if m + n < UInt64.size then pure (m + n) else fault (.overflow m n)

def subtract (m n : Nat) : Guarded Nat := if n ≤ m then pure (m - n) else fault (.underflow m n)

/-- An integer as a word of 64 bits. -/
def toWord (n : Int) : Guarded Nat :=
  if 0 ≤ n ∧ n < UInt64.size then pure n.toNat else fault (.lossy n)

theorem range_of_le {low high : Int} (h : low ≤ high) : range low high = pure () := if_pos h

theorem add_of_lt {m n : Nat} (h : m + n < UInt64.size) : add m n = pure (m + n) := if_pos h

theorem subtract_of_le {m n : Nat} (h : n ≤ m) : subtract m n = pure (m - n) := if_pos h

theorem toWord_of_int64 {n : Int} (h : 0 ≤ n) (h' : n < int64Limit) : toWord n = pure n.toNat :=
  if_pos ⟨h, Int.lt_trans h' (by decide)⟩

/-! ## Draws -/

/-- `Draw.between` of a range that is not empty. -/
def between (low high : Int) : GuardedDraw Int := do
  range low high
  ofDraw (Draw.between low high)

/-- `Draw.index` among at least one. -/
def index (n : Nat) : GuardedDraw Nat := do
  range 0 (n - 1)
  ofDraw (Draw.index n)

/-- `Draw.pick`; nothing is drawn from an empty list. -/
def pick (items : List α) : GuardedDraw (Option α) :=
  match items with
  | [] => pure none
  | items => do
    let i ← index items.length
    pure items[i]?

/-- `Action.draw` of a guarded draw. -/
def draw (x : GuardedDraw α) : GuardedAction α := fun s => do
  let (a, source) ← x s.source
  pure (.ok a, { s with source })

end Guarded

/-! ## Doing the same -/

open Guarded

section Follows

variable {α β γ δ : Type} {R : α → β → Prop} {S : γ → δ → Prop} {x : Guarded α} {o : Option β}

/-- A guarded computation makes no fault and has a value where a plain one has, a related one. -/
def Follows (R : α → β → Prop) (x : Guarded α) (o : Option β) : Prop :=
  ∃ p, x = ofOption p ∧ Option.Rel R p o

namespace Follows

theorem pure {a : α} {b : β} (h : R a b) : Follows R (pure a) (some b) := ⟨some a, rfl, .some h⟩

theorem ofOption (o : Option α) : Follows Eq (.ofOption o) o := by
  refine ⟨o, rfl, ?_⟩
  cases o with
  | none => exact .none
  | some a => exact .some rfl

theorem mono {R' : α → β → Prop} (h : Follows R x o) (hR : ∀ a b, R a b → R' a b) :
    Follows R' x o := by
  obtain ⟨p, rfl, hp⟩ := h
  cases hp with
  | none => exact ⟨none, rfl, .none⟩
  | some hab => exact pure (hR _ _ hab)

theorem eq {x : Guarded β} (h : Follows Eq x o) : x = .ofOption o := by
  obtain ⟨p, rfl, hp⟩ := h
  cases hp with
  | none => rfl
  | some h => rw [h]

theorem bind {f : α → Guarded γ} {g : β → Option δ} (hx : Follows R x o)
    (hf : ∀ a b, R a b → o = some b → Follows S (f a) (g b)) :
    Follows S (x >>= f) (o.bind g) := by
  obtain ⟨p, rfl, hp⟩ := hx
  cases hp with
  | none => exact ⟨none, rfl, .none⟩
  | some h => exact hf _ _ h rfl

end Follows

end Follows

section Tracks

variable {α β γ δ : Type} {R : α → β → Prop} {S : γ → δ → Prop}

/-- A guarded draw makes no fault and does the same as a plain one, but for related values. -/
def Tracks (R : α → β → Prop) (x : GuardedDraw α) (d : Draw β) : Prop :=
  ∀ s, Follows (fun p q => R p.1 q.1 ∧ p.2 = q.2) (x s) (d s)

namespace Tracks

variable {x : GuardedDraw α} {d : Draw β}

theorem pure {a : α} {b : β} (h : R a b) : Tracks R (pure a) (pure b) := fun _ => .pure ⟨h, rfl⟩

theorem ofDraw (d : Draw α) : Tracks Eq (.ofDraw d) d := fun s =>
  (Follows.ofOption (d s)).mono fun _ _ h => ⟨congrArg Prod.fst h, congrArg Prod.snd h⟩

theorem bind {f : α → GuardedDraw γ} {g : β → Draw δ} (hx : Tracks R x d)
    (hf : ∀ a b, R a b → (∃ s t, d s = some (b, t)) → Tracks S (f a) (g b)) :
    Tracks S (x >>= f) (d >>= g) := by
  intro s
  refine (hx s).bind ?_
  rintro ⟨a, t⟩ ⟨b, u⟩ ⟨hab, rfl⟩ hb
  exact hf a b hab ⟨s, t, hb⟩ t

/-- A check that is passed makes no difference. -/
theorem check {g : Guarded γ} {c : γ} {f : γ → GuardedDraw α} (hg : g = .pure c)
    (h : Tracks R (f c) d) : Tracks R (liftM g >>= f) d := by
  subst hg
  exact h

theorem between {low high : Int} (h : low ≤ high) :
    Tracks Eq (Guarded.between low high) (Draw.between low high) :=
  check (range_of_le h) (ofDraw _)

theorem index {n : Nat} (h : 0 < n) : Tracks Eq (Guarded.index n) (Draw.index n) :=
  check (range_of_le (by omega)) (ofDraw _)

theorem pick (items : List α) : Tracks Eq (Guarded.pick items) (Draw.pick items) := by
  cases items with
  | nil => exact pure rfl
  | cons a items =>
      refine (index (Nat.zero_lt_succ _)).bind ?_
      rintro i _ rfl -
      exact pure rfl

end Tracks

end Tracks

section Agrees

variable {α β : Type}

/-- A guarded action makes no fault and does the same as a plain one. -/
def Agrees (x : GuardedAction α) (a : Action α) : Prop := ∀ s, x s = ofOption (a s)

namespace Agrees

variable {x : GuardedAction α} {a : Action α}

theorem ofAction (a : Action α) : Agrees (.ofAction a) a := fun _ => rfl

theorem pure (v : α) : Agrees (pure v) (pure v) := fun _ => rfl

theorem throw (e : Failure) : Agrees (α := α) (throw e) (throw e) := fun _ => rfl

theorem bind {f : α → GuardedAction β} {g : α → Action β} (hx : Agrees x a)
    (hf : ∀ v, (∃ s t, a s = some (.ok v, t)) → Agrees (f v) (g v)) :
    Agrees (x >>= f) (a >>= g) := by
  intro s
  have hbefore := hx s
  simp only [Bind.bind, ExceptT.bind, ExceptT.mk, StateT.bind] at hbefore ⊢
  rw [hbefore]
  cases ha : a s with
  | none => rfl
  | some q =>
      obtain ⟨r, t⟩ := q
      cases r with
      | error e => rfl
      | ok v => exact hf v ⟨s, t, ha⟩ t

theorem check {g : Guarded β} {c : β} {f : β → GuardedAction α} (hg : g = .pure c)
    (h : Agrees (f c) a) : Agrees (liftM g >>= f) a := by
  subst hg
  exact h

theorem draw {x : GuardedDraw α} {d : Draw α} (h : Tracks Eq x d) :
    Agrees (Guarded.draw x) (Action.draw d) := by
  intro s
  have hx : x s.source = .ofOption (d s.source) :=
    ((h s.source).mono fun _ _ hab => Prod.ext hab.1 hab.2).eq
  simp only [Guarded.draw, Action.draw, hx]
  cases d s.source <;> rfl

end Agrees

end Agrees

end Specimen
