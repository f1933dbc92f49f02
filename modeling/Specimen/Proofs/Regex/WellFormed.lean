import Specimen.Proofs.Regex.Assembly
/-!
# Trees that are read are well-formed

Every construct of a tree that `parse` answers has the parts it needs: sequences and choices have
at least two, classes have members and their ranges ascend, and no repetition asks for more
copies than it allows. Nor does a construct choose between more than the pattern has room for:
each member of a class takes a character, and each further branch a bar.
-/

namespace Specimen.Regex

def ClassItem.IsOrdered : ClassItem → Prop
  | .range first last => first ≤ last
  | .char _ | .category _ => True

namespace Construct

/-- Whether a construct has the parts it needs. -/
def IsFormed : Construct → Prop
  | .concat items => 2 ≤ items.length
  | .alternation branches => 2 ≤ branches.length
  | .charClass _ items => items ≠ [] ∧ ∀ i ∈ items, i.IsOrdered
  | .repetition least most _ => ∀ m ∈ most, least ≤ m
  | _ => True

/-- Whether all constructs of a tree have the parts they need. -/
def IsWellFormed (c : Construct) : Prop := ∀ n ∈ c.nodes, n.IsFormed

/-- How many branches or members a construct itself chooses between. -/
def width : Construct → Nat
  | .alternation branches => branches.length
  | .charClass _ items => items.length
  | _ => 0

end Construct

/-! ## Classes -/

section Classes

variable {position : Nat} {cs : List Char}

theorem isOrdered_of_rangeEnd {first : Char} {p : Piece ClassItem}
    (h : rangeEnd first position cs = .ok p) : p.value.IsOrdered := by
  obtain ⟨⟨last, used⟩, -, h⟩ := bind_eq_ok.1 h
  dsimp only at h
  split at h
  · cases h
  · rename_i hle
    cases h
    exact Char.not_lt.1 hle

theorem isOrdered_of_rangeFrom {first : Char} {used : Nat} {p : Piece ClassItem}
    (h : rangeFrom first used position cs = .ok p) : p.value.IsOrdered := by
  unfold rangeFrom at h
  split at h
  · split at h
    · cases h
      trivial
    · obtain ⟨⟨item, more⟩, hitem, h⟩ := bind_eq_ok.1 h
      cases h
      have hordered := isOrdered_of_rangeEnd hitem
      exact hordered
  · cases h
    trivial

theorem isOrdered_of_classItem {c : Char} {p : Piece ClassItem}
    (h : classItem position c cs = .ok p) : p.value.IsOrdered := by
  unfold classItem at h
  split at h
  · split at h
    · cases h
      trivial
    · obtain ⟨⟨d, used⟩, -, h⟩ := bind_eq_ok.1 h
      exact isOrdered_of_rangeFrom h
  · exact isOrdered_of_rangeFrom h

/-- The members of a class are ordered, and there is one unless a bracket
could close the class at once. -/
theorem isFormed_of_classItems {first : Bool} {items : List ClassItem} {used skip : Nat}
    {p : Piece (List ClassItem)} (hitems : ∀ i ∈ items, i.IsOrdered)
    (hfirst : first = false → items ≠ [])
    (h : classItems first items used skip position cs = .ok p) :
    p.value ≠ [] ∧ ∀ i ∈ p.value, i.IsOrdered := by
  induction cs generalizing first items used skip position with
  | nil => cases skip <;> cases h
  | cons c cs ih =>
      cases skip with
      | succ skip => exact ih hitems hfirst h
      | zero =>
          unfold classItems at h
          split at h
          · rename_i hclose
            cases h
            refine ⟨?_, by simpa using hitems⟩
            simpa using hfirst (by simpa using hclose.2)
          · split at h
            · cases h
            · rename_i item n hitem
              refine ih ?_ (by simp) h
              simpa using ⟨isOrdered_of_classItem hitem, hitems⟩

theorem length_of_classItems {first : Bool} {items : List ClassItem} {used skip : Nat}
    {p : Piece (List ClassItem)} (h : classItems first items used skip position cs = .ok p) :
    p.value.length ≤ items.length + cs.length := by
  induction cs generalizing first items used skip position with
  | nil => cases skip <;> cases h
  | cons c cs ih =>
      rw [List.length_cons]
      cases skip with
      | succ skip =>
          have hrest := ih h
          omega
      | zero =>
          unfold classItems at h
          split at h
          · cases h
            rw [List.length_reverse]
            omega
          · split at h
            · cases h
            · have hrest := ih h
              rw [List.length_cons] at hrest
              omega

theorem isFormed_of_charClass {p : Piece Construct} (h : charClass position cs = .ok p) :
    p.value.IsFormed ∧ p.value.width ≤ cs.length := by
  obtain ⟨⟨items, used⟩, hitems, h⟩ := bind_eq_ok.1 h
  have hformed := isFormed_of_classItems (by simp) (by simp) hitems
  have hlength := length_of_classItems hitems
  rw [List.length_drop, List.length_nil, Nat.zero_add] at hlength
  dsimp only at h
  split at h <;> cases h
  · exact ⟨trivial, Nat.zero_le _⟩
  · exact ⟨hformed, Nat.le_trans hlength (Nat.sub_le _ _)⟩

end Classes

/-! ## Trees -/

/-- Every construct of a tree that is read has the parts it needs. -/
theorem isWellFormed_of_parse {pattern : String} {c : Construct} (h : parse pattern = .ok c) :
    c.IsWellFormed := by
  refine everywhere_of_parse (P := Construct.IsFormed) ?joins ?carries h
  case joins => exact ⟨trivial, fun _ h => h, fun _ h _ => h⟩
  case carries =>
      refine fun groups => ⟨fun a ha _ => ?_, fun _ hq => (isFormed_of_charClass hq).1,
        fun _ _ => trivial, fun _ _ _ h => h⟩
      cases ha <;> simp [Construct.IsFormed, ClassItem.IsOrdered]

/-- A construct of a tree that is read chooses between at most one more than the pattern has
characters. -/
theorem width_of_parse {pattern : String} {c : Construct} (h : parse pattern = .ok c) :
    ∀ n ∈ c.nodes, n.width ≤ pattern.length + 1 := by
  refine everywhere_of_parse (P := fun n => n.width ≤ pattern.length + 1) ?joins ?carries h
  case joins => exact ⟨Nat.zero_le _, fun _ _ => Nat.zero_le _, fun _ _ h => h⟩
  case carries =>
      refine fun groups => ⟨fun a ha _ => ?_, fun hlength hq => ?_, fun _ _ => Nat.zero_le _,
        fun _ _ _ _ => Nat.zero_le _⟩
      · cases ha <;> simp [Construct.width]
      · have hwidth := (isFormed_of_charClass hq).2
        omega

end Specimen.Regex
