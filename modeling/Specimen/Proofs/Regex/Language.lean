import Specimen.Regex.Construct
/-!
# The language of a construct tree

`Matches` says that a word belongs to a construct, where the groups are bound to texts before it
and to others after it. Which characters a construct for a single character has is a parameter;
`Construct.Admits` is what they stand for.
-/

namespace Specimen.Regex

/-- The texts that the groups are bound to. -/
abbrev Env := Nat → Option (List Char)

/-- Binds a group, whatever it was bound to before. -/
def Env.bind (env : Env) (index : Nat) (w : List Char) : Env := fun i =>
  if i = index then some w else env i

/-- The characters that a construct for one character stands for. -/
def Construct.Admits : Construct → Char → Prop
  | .literal c, d => d = c
  | .notLiteral c, d => d ≠ c
  | .any, d => d ≠ '\n'
  | .charClass negated items, d => (items.any (·.has d)) = !negated
  | _, _ => False

/-- A word of a construct, between the bindings of the groups before it and after it. -/
inductive Matches (admits : Construct → Char → Prop) : Env → Construct → List Char → Env → Prop
  | empty {env : Env} : Matches admits env .empty [] env
  | char {env : Env} {c : Construct} {d : Char} : admits c d → Matches admits env c [d] env
  | nil {env : Env} : Matches admits env (.concat []) [] env
  | cons {env env₁ env₂ : Env} {c : Construct} {cs : List Construct} {w₁ w₂ : List Char} :
      Matches admits env c w₁ env₁ → Matches admits env₁ (.concat cs) w₂ env₂ →
      Matches admits env (.concat (c :: cs)) (w₁ ++ w₂) env₂
  | alternation {env env' : Env} {c : Construct} {branches : List Construct} {w : List Char} :
      c ∈ branches → Matches admits env c w env' →
      Matches admits env (.alternation branches) w env'
  | repetition {env env' : Env} {least k : Nat} {most : Option Nat} {body : Construct}
      {w : List Char} : least ≤ k → (∀ m ∈ most, k ≤ m) →
      Matches admits env (.concat (List.replicate k body)) w env' →
      Matches admits env (.repetition least most body) w env'
  | group {env env' : Env} {body : Construct} {w : List Char} :
      Matches admits env body w env' → Matches admits env (.group none body) w env'
  | capture {env env' : Env} {i : Nat} {body : Construct} {w : List Char} :
      Matches admits env body w env' →
      Matches admits env (.group (some i) body) w (env'.bind i w)
  | backref {env : Env} {i : Nat} : Matches admits env (.backref i) ((env i).getD []) env

/-- The words of a tree, in which no group is bound at the start. -/
def Construct.Language (c : Construct) (w : List Char) : Prop :=
  ∃ env, Matches Admits (fun _ => none) c w env

theorem Matches.append {admits : Construct → Char → Prop} {env env₁ env₂ : Env}
    {cs ds : List Construct} {w₁ w₂ : List Char} (h : Matches admits env (.concat cs) w₁ env₁)
    (h' : Matches admits env₁ (.concat ds) w₂ env₂)
    (hadmits : ∀ es d, ¬ admits (.concat es) d) :
    Matches admits env (.concat (cs ++ ds)) (w₁ ++ w₂) env₂ := by
  induction cs generalizing env w₁ with
  | nil =>
      cases h with
      | char hd => exact absurd hd (hadmits _ _)
      | nil => exact h'
  | cons c cs ih =>
      cases h with
      | char hd => exact absurd hd (hadmits _ _)
      | cons hc hcs =>
          rw [List.append_assoc]
          exact .cons hc (ih hcs)

/-- A word of two sequences in a row is cut between them. -/
theorem Matches.exists_append {admits : Construct → Char → Prop} {env env₂ : Env}
    {cs ds : List Construct} {w : List Char} (h : Matches admits env (.concat (cs ++ ds)) w env₂)
    (hadmits : ∀ es d, ¬ admits (.concat es) d) :
    ∃ w₁ env₁ w₂, w = w₁ ++ w₂ ∧ Matches admits env (.concat cs) w₁ env₁ ∧
      Matches admits env₁ (.concat ds) w₂ env₂ := by
  induction cs generalizing env w with
  | nil => exact ⟨[], env, w, rfl, .nil, h⟩
  | cons c cs ih =>
      rw [List.cons_append] at h
      cases h with
      | char hd => exact absurd hd (hadmits _ _)
      | cons hc hcs =>
          obtain ⟨w₁, env₁, w₂, rfl, hfirst, hrest⟩ := ih hcs
          exact ⟨_, env₁, w₂, (List.append_assoc _ _ _).symm, .cons hc hfirst, hrest⟩

/-! ## The constructs inside a tree -/

namespace Construct

/-- The constructs directly inside. -/
def parts : Construct → List Construct
  | .concat items => items
  | .alternation branches => branches
  | .repetition _ _ body => [body]
  | .group _ body => [body]
  | _ => []

theorem sizeOf_lt_of_mem_parts {c d : Construct} (h : d ∈ c.parts) : sizeOf d < sizeOf c := by
  cases c <;> simp only [parts, List.mem_singleton, List.not_mem_nil] at h
  case concat items =>
      have := List.sizeOf_lt_of_mem h
      simp only [concat.sizeOf_spec]
      omega
  case alternation branches =>
      have := List.sizeOf_lt_of_mem h
      simp only [alternation.sizeOf_spec]
      omega
  case repetition least most body =>
      subst h
      simp only [repetition.sizeOf_spec]
      omega
  case group index body =>
      subst h
      simp only [group.sizeOf_spec]
      omega

/-- What holds of a construct if it holds of its parts holds of every tree. -/
@[elab_as_elim]
theorem induction_parts {motive : Construct → Prop}
    (h : ∀ c, (∀ d ∈ c.parts, motive d) → motive c) (c : Construct) : motive c :=
  h c fun d _ => induction_parts h d
termination_by sizeOf c
decreasing_by exact sizeOf_lt_of_mem_parts ‹_›

mutual

/-- The construct and all inside it, each before its parts. -/
def nodes : Construct → List Construct
  | .concat items => .concat items :: nodesOf items
  | .alternation branches => .alternation branches :: nodesOf branches
  | .repetition least most body => .repetition least most body :: nodes body
  | .group index body => .group index body :: nodes body
  | .empty => [.empty]
  | .literal c => [.literal c]
  | .notLiteral c => [.notLiteral c]
  | .any => [.any]
  | .charClass negated items => [.charClass negated items]
  | .backref index => [.backref index]
  | .anchor a => [.anchor a]
  | .skipped k => [.skipped k]

def nodesOf : List Construct → List Construct
  | [] => []
  | c :: cs => nodes c ++ nodesOf cs

end

theorem self_mem_nodes (c : Construct) : c ∈ c.nodes := by
  cases c <;> simp [nodes]

theorem mem_nodesOf {c : Construct} {cs : List Construct} :
    c ∈ nodesOf cs ↔ ∃ d ∈ cs, c ∈ d.nodes := by
  induction cs with
  | nil => simp [nodesOf]
  | cons d cs ih => simp [nodesOf, ih]

theorem mem_nodes {c n : Construct} : n ∈ c.nodes ↔ n = c ∨ ∃ d ∈ c.parts, n ∈ d.nodes := by
  cases c <;> simp [nodes, parts, mem_nodesOf]

end Construct

end Specimen.Regex
