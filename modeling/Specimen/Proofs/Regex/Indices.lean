import Specimen.Proofs.Regex.Assembly
/-!
# The indices of the groups of a tree

In the order in which the groups begin, these are the indices that the tokens open, but for those
in a lookaround, which the machine leaves out.
-/

namespace Specimen.Regex

/-! ## Trees -/

namespace Construct

def index? : Construct → Option Nat
  | .group index _ => index
  | _ => none

/-- The indices of the groups of some trees, in the order in which they begin. -/
def indicesOf (cs : List Construct) : List Nat := (nodesOf cs).filterMap index?

def indices (c : Construct) : List Nat := c.nodes.filterMap index?

theorem indices_eq (c : Construct) : c.indices = c.index?.toList ++ indicesOf c.parts := by
  cases c <;> simp [indices, indicesOf, index?, nodes, nodesOf, parts, List.filterMap_cons]
  case group index body => cases index <;> rfl

@[simp] theorem indicesOf_nil : indicesOf [] = [] := rfl

@[simp] theorem indicesOf_cons (c : Construct) (cs : List Construct) :
    indicesOf (c :: cs) = c.indices ++ indicesOf cs := by
  simp [indicesOf, indices, nodesOf]

@[simp] theorem indicesOf_append (cs ds : List Construct) :
    indicesOf (cs ++ ds) = indicesOf cs ++ indicesOf ds := by
  induction cs with
  | nil => rfl
  | cons c cs ih => simp [ih]

theorem indices_sequence (cs : List Construct) : (sequence cs).indices = indicesOf cs := by
  match cs with
  | [] => rfl
  | [c] => simp [sequence]
  | c :: d :: cs => exact indices_eq _

theorem indices_choice (cs : List Construct) : (choice cs).indices = indicesOf cs := by
  match cs with
  | [] => rfl
  | [c] => simp [choice]
  | c :: d :: cs => exact indices_eq _

end Construct

/-! ## The machine -/

def Opening.index? : Opening → Option Nat
  | .group index => index
  | .look _ => none

/-- The index of the group that a token opens. -/
def Token.index? : Token → Option Nat
  | .opening o => o.index?
  | _ => none

/-- The indices of what was read of a group. -/
def Level.indices (l : Level) : List Nat :=
  Construct.indicesOf l.branches.reverse ++ Construct.indicesOf l.items.reverse

namespace Level

variable (l : Level)

theorem indices_push (c : Construct) : (l.push c).indices = l.indices ++ c.indices := by
  simp [indices, push]

theorem indices_bar : l.bar.indices = l.indices := by
  simp [indices, bar, Construct.indices_sequence]

theorem indices_construct : l.construct.indices = l.indices := by
  rw [construct, Construct.indices_choice, ← indices_bar]
  simp [indices, bar]

end Level

namespace Reader

/-- The indices of the groups that surround what is read, and of what they hold before it. -/
def indicesAround (stack : List (Opening × Level)) : List Nat :=
  stack.reverse.flatMap fun p => p.2.indices ++ p.1.index?.toList

def indices (r : Reader) : List Nat := indicesAround r.stack ++ r.level.indices

@[simp] theorem indicesAround_cons (p : Opening × Level) (stack : List (Opening × Level)) :
    indicesAround (p :: stack) = indicesAround stack ++ (p.2.indices ++ p.1.index?.toList) := by
  simp [indicesAround]

variable {r r' : Reader}

/-- A step adds the index of its token behind the others, and leaves
out those of a lookaround. -/
theorem indices_step {t : Token} (hleaf : ∀ c, t = .atom c → c.indices = [])
    (h : r.step t = .ok r') : r'.indices.Sublist (r.indices ++ t.index?.toList) := by
  cases t with
  | atom c =>
      cases h
      simp [indices, Level.indices_push, hleaf c rfl]
  | quantifier least most blame =>
      simp only [step] at h
      split at h <;> cases h
      rename_i c items hitems
      simp [indices, Level.indices, hitems, Construct.indices_eq (.repetition _ _ _),
        Construct.index?, Construct.parts]
  | bar =>
      cases h
      simp [indices, Level.indices_bar]
  | opening o =>
      cases h
      simp [indices, Level.indices, Token.index?]
  | closing position =>
      simp only [step] at h
      split at h <;> cases h
      rename_i o outer stack hstack
      cases o with
      | group index =>
          simp [indices, hstack, Level.indices_push, Level.indices_construct, grouped,
            Construct.indices_eq (.group _ _), Construct.index?, Construct.parts, Opening.index?]
      | look k =>
          simp [indices, hstack, Level.indices_push, grouped, Construct.indices_eq (.skipped _),
            Construct.index?, Construct.parts]
  | fault e => cases h

theorem indices_steps {ts : List Token} (hleaf : ∀ c, .atom c ∈ ts → c.indices = [])
    (h : ts.foldlM step r = .ok r') :
    r'.indices.Sublist (r.indices ++ ts.filterMap (·.index?)) := by
  induction ts generalizing r with
  | nil =>
      cases h
      simp
  | cons t ts ih =>
      rw [List.foldlM_cons] at h
      obtain ⟨q, hq, h⟩ := bind_eq_ok.1 h
      have hrest := ih (fun c hc => hleaf c (List.mem_cons_of_mem _ hc)) h
      have hfirst := indices_step (fun c hc => hleaf c (by simp [hc])) hq
      have hcons : (t :: ts).filterMap (·.index?) =
          t.index?.toList ++ ts.filterMap (·.index?) := by
        cases hindex : t.index? <;> simp [hindex]
      rw [hcons, ← List.append_assoc]
      exact hrest.trans (hfirst.append (List.Sublist.refl _))

end Reader

theorem Token.index?_eq_some {t : Token} {i : Nat} :
    t.index? = some i ↔ t = .opening (.group (some i)) := by
  cases t with
  | opening o => cases o <;> simp [index?, Opening.index?]
  | _ => simp [index?]

theorem indices_of_isRead {groups : Groups} {length : Nat} {c : Construct}
    (h : (Token.atom c).IsRead groups length) : c.indices = [] := by
  generalize ht : Token.atom c = t at h
  cases h <;> cases ht
  case atomic hc _ => cases hc <;> rfl
  case charClass hq =>
    rcases value_of_charClass hq with ⟨c, hc⟩ | ⟨negated, items, hc⟩ <;> rw [hc] <;> rfl

theorem indices_of_parse {pattern : String} {c : Construct} (h : parse pattern = .ok c)
    (hleaf : ∀ a, .atom a ∈ tokens pattern → a.indices = []) :
    c.indices.Sublist ((tokens pattern).filterMap (·.index?)) := by
  obtain ⟨l, hsteps, rfl⟩ := parse_eq_ok.1 h
  have hindices := Reader.indices_steps hleaf hsteps
  rw [Level.indices_construct]
  simpa [Reader.indices, Reader.indicesAround, Level.indices] using hindices

end Specimen.Regex
