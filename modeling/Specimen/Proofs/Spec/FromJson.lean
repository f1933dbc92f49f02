import Specimen.Proofs.Spec.Descendants
import Specimen.Spec.Reader
/-!
# What lies inside a description from JSON

A description that is read from JSON, and all inside it, has every property that the empty
description has and that assigning a field keeps. So the lengths in it are integers of the signed
64-bit range.
-/

namespace Specimen.Spec

/-- A property of descriptions that each field assigned keeps. -/
structure KeptByFields (Q : Spec → Prop) : Prop where
  empty : Q .empty
  plain : ∀ {s : Spec} (field : String) (v : Json), Q s → Q (assignPlain s field v)
  keys : ∀ {s : Spec} (keys : List (KeyDecl Spec)), Q s → Q { s with keys }
  elements : ∀ {s : Spec} (c : Spec), Q s → Q { s with typeElements := some c }
  options : ∀ {s : Spec} (options : List (ChoiceOption Spec)), Q s → Q { s with options }

/-- Every description that a value can be read as has a property, and all inside it. -/
structure Reads (Q : Spec → Prop) (v : Json) : Prop where
  spec : (ofJson v).Everywhere Q
  keys : ∀ k ∈ keysOf v, ∀ c ∈ k.specs, c.Everywhere Q
  options : ∀ o ∈ optionsOf v, o.spec.Everywhere Q

theorem assignFields_cons (s : Spec) (field : String) (v : Json) (rest : List (String × Json)) :
    assignFields s ((field, v) :: rest) =
      assignFields
        (match field with
        | "keys" => { s with keys := keysOf v }
        | "type_elements" => { s with typeElements := some (ofJson v) }
        | "options" => { s with options := optionsOf v }
        | name => assignPlain s name v) rest := rfl

theorem assignKey_cons (k : KeyDecl Spec) (field : String) (v : Json)
    (rest : List (String × Json)) :
    assignKey k ((field, v) :: rest) =
      assignKey
        (match field with
        | "name" => { k with name := nameOf v }
        | "type" => { k with value := ofJson v }
        | "repeat" => { k with times := v.nat64?.getD 0 }
        | "chance" => { k with chance := chanceOf v }
        | _ => k) rest := rfl

theorem assignOption_cons (o : ChoiceOption Spec) (field : String) (v : Json)
    (rest : List (String × Json)) :
    assignOption o ((field, v) :: rest) =
      assignOption
        (match field with
        | "chance" => { o with chance := v.float? }
        | "type" => { o with spec := ofJson v }
        | _ => o) rest := rfl

theorem children_assignPlain (s : Spec) (field : String) (v : Json) :
    (assignPlain s field v).children = s.children := by
  unfold assignPlain
  split <;> rfl

theorem mem_keyItems {items : List Json} {k : KeyDecl Spec} (hk : k ∈ keyItems items) :
    ∃ fields, .obj fields ∈ items ∧ k = assignKey blankKey fields := by
  induction items with
  | nil => cases hk
  | cons item items ih =>
      cases item with
      | obj fields =>
          rw [keyItems] at hk
          rcases List.mem_cons.1 hk with rfl | hk
          · exact ⟨fields, List.mem_cons_self, rfl⟩
          · obtain ⟨fields', hmem, rfl⟩ := ih hk
            exact ⟨fields', List.mem_cons_of_mem _ hmem, rfl⟩
      | _ =>
          rw [keyItems] at hk
          · obtain ⟨fields', hmem, rfl⟩ := ih hk
            exact ⟨fields', List.mem_cons_of_mem _ hmem, rfl⟩
          · nofun

theorem mem_optionItems {items : List Json} {o : ChoiceOption Spec}
    (ho : o ∈ optionItems items) :
    o = ⟨none, empty⟩ ∨ ∃ fields, .obj fields ∈ items ∧
    o = assignOption ⟨none, empty⟩ fields := by
  induction items with
  | nil => cases ho
  | cons item items ih =>
      cases item with
      | obj fields =>
          rw [optionItems] at ho
          rcases List.mem_cons.1 ho with rfl | ho
          · exact .inr ⟨fields, List.mem_cons_self, rfl⟩
          · exact (ih ho).imp_right fun ⟨fields', hmem, hsame⟩ =>
              ⟨fields', List.mem_cons_of_mem _ hmem, hsame⟩
      | _ =>
          rw [optionItems] at ho
          · rcases List.mem_cons.1 ho with rfl | ho
            · exact .inl rfl
            · exact (ih ho).imp_right fun ⟨fields', hmem, hsame⟩ =>
                ⟨fields', List.mem_cons_of_mem _ hmem, hsame⟩
          · nofun

theorem sizeOf_lt_of_mem_obj {fields : List (String × Json)} {entry : String × Json}
    (h : entry ∈ fields) : sizeOf entry.2 < sizeOf (Json.obj fields) := by
  have hmem := List.sizeOf_lt_of_mem h
  obtain ⟨name, v⟩ := entry
  simp only [Prod.mk.sizeOf_spec] at hmem
  simp only [Json.obj.sizeOf_spec]
  omega

section Kept

variable {Q : Spec → Prop} (hQ : KeptByFields Q)
include hQ

theorem everywhere_assignFields {fields : List (String × Json)}
    (hfields : ∀ entry ∈ fields, Reads Q entry.2) {s : Spec} (hs : s.Everywhere Q) :
    (assignFields s fields).Everywhere Q := by
  induction fields generalizing s with
  | nil =>
      rw [assignFields]
      exact hs
  | cons entry fields ih =>
      obtain ⟨field, v⟩ := entry
      have hv := hfields (field, v) List.mem_cons_self
      rw [assignFields_cons]
      refine ih (fun e he => hfields e (List.mem_cons_of_mem _ he)) ?_
      split
      · refine .of_children (hQ.keys _ hs.self) fun c hc => ?_
        simp only [children, List.mem_append, List.mem_flatMap] at hc
        obtain (hc | ⟨k, hk, hc⟩) | hc := hc
        · exact hs.child (List.mem_append_left _ (List.mem_append_left _ hc))
        · exact hv.keys k hk c hc
        · exact hs.child (List.mem_append_right _ hc)
      · refine .of_children (hQ.elements _ hs.self) fun c hc => ?_
        simp only [children, List.mem_append, Option.mem_toList, Option.some.injEq] at hc
        obtain (rfl | hc) | hc := hc
        · exact hv.spec
        · exact hs.child (List.mem_append_left _ (List.mem_append_right _ hc))
        · exact hs.child (List.mem_append_right _ hc)
      · refine .of_children (hQ.options _ hs.self) fun c hc => ?_
        simp only [children, List.mem_append, List.mem_map] at hc
        obtain hc | ⟨o, ho, rfl⟩ := hc
        · exact hs.child (List.mem_append_left _ (List.mem_append.2 hc))
        · exact hv.options o ho
      · refine .of_children (hQ.plain _ _ hs.self) fun c hc => ?_
        rw [children_assignPlain] at hc
        exact hs.child hc

theorem everywhere_nameOf {v : Json} (hv : Reads Q v) :
    ∀ c ∈ (nameOf v).specs, c.Everywhere Q := by
  have hspec := hv.spec
  cases v with
  | obj fields =>
      rw [ofJson] at hspec
      simpa [nameOf, KeyName.specs] using hspec
  | str text => simp [nameOf, KeyName.specs]
  | _ => simpa [nameOf, KeyName.specs] using Everywhere.empty hQ.empty

theorem everywhere_assignKey {fields : List (String × Json)}
    (hfields : ∀ entry ∈ fields, Reads Q entry.2) {k : KeyDecl Spec}
    (hk : ∀ c ∈ k.specs, c.Everywhere Q) :
    ∀ c ∈ (assignKey k fields).specs, c.Everywhere Q := by
  induction fields generalizing k with
  | nil =>
      rw [assignKey]
      exact hk
  | cons entry fields ih =>
      obtain ⟨field, v⟩ := entry
      have hv := hfields (field, v) List.mem_cons_self
      rw [assignKey_cons]
      refine ih (fun e he => hfields e (List.mem_cons_of_mem _ he)) ?_
      simp only [KeyDecl.specs, List.mem_append, List.mem_singleton] at hk ⊢
      split
      · rintro c (hc | rfl)
        · exact everywhere_nameOf hQ hv c hc
        · exact hk _ (.inr rfl)
      · rintro c (hc | rfl)
        · exact hk c (.inl hc)
        · exact hv.spec
      all_goals exact hk

omit hQ in
theorem everywhere_assignOption {fields : List (String × Json)}
    (hfields : ∀ entry ∈ fields, Reads Q entry.2) {o : ChoiceOption Spec}
    (ho : o.spec.Everywhere Q) : (assignOption o fields).spec.Everywhere Q := by
  induction fields generalizing o with
  | nil =>
      rw [assignOption]
      exact ho
  | cons entry fields ih =>
      obtain ⟨field, v⟩ := entry
      have hv := hfields (field, v) List.mem_cons_self
      rw [assignOption_cons]
      refine ih (fun e he => hfields e (List.mem_cons_of_mem _ he)) ?_
      split
      · exact ho
      · exact hv.spec
      · exact ho

theorem reads (v : Json) : Reads Q v := by
  induction hn : sizeOf v using Nat.strongRecOn generalizing v with
  | ind n ih =>
      have hfields : ∀ {fields : List (String × Json)}, sizeOf (Json.obj fields) ≤ n →
          ∀ entry ∈ fields, Reads Q entry.2 := fun hle entry hentry =>
        ih _ (Nat.lt_of_lt_of_le (sizeOf_lt_of_mem_obj hentry) hle) entry.2 rfl
      have hempty := Everywhere.empty hQ.empty
      cases v with
      | obj fields =>
          refine ⟨?_, by simp [keysOf], by simp [optionsOf]⟩
          rw [ofJson]
          exact everywhere_assignFields hQ (hfields (Nat.le_of_eq hn)) hempty
      | arr items =>
          have hitem : ∀ {fields : List (String × Json)}, .obj fields ∈ items →
              ∀ entry ∈ fields, Reads Q entry.2 := by
            intro fields hmem
            have hlt := List.sizeOf_lt_of_mem hmem
            simp only [Json.arr.sizeOf_spec] at hn
            exact hfields (by omega)
          refine ⟨by simpa [ofJson] using hempty, fun k hk => ?_, fun o ho => ?_⟩
          · rw [keysOf] at hk
            obtain ⟨fields, hmem, rfl⟩ := mem_keyItems hk
            refine everywhere_assignKey hQ (hitem hmem) fun c hc => ?_
            simp only [blankKey, KeyDecl.specs, KeyName.specs, List.cons_append, List.nil_append,
              List.mem_cons, List.not_mem_nil, or_false, or_self] at hc
            exact hc ▸ hempty
          · rw [optionsOf] at ho
            obtain rfl | ⟨fields, hmem, rfl⟩ := mem_optionItems ho
            · exact hempty
            · exact everywhere_assignOption (hitem hmem) hempty
      | _ =>
          exact ⟨by simpa [ofJson] using hempty, by simp [keysOf], by simp [optionsOf]⟩

/-- What is read from JSON has a property everywhere that each field assigned keeps. -/
theorem everywhere_ofJson (v : Json) : (ofJson v).Everywhere Q := (reads hQ v).spec

end Kept

/-- The bounds of a length are integers of the signed 64-bit range. -/
def IsMeasured (s : Spec) : Prop :=
  ∀ n, s.minLength = some n ∨ s.maxLength = some n → -int64Limit ≤ n ∧ n < int64Limit

theorem isMeasured_empty : IsMeasured .empty := by simp [IsMeasured, empty]

theorem isMeasured_ofJson (v : Json) : (ofJson v).Everywhere IsMeasured := by
  have hint : ∀ {v : Json} {n : Int}, v.int64? = some n → -int64Limit ≤ n ∧ n < int64Limit := by
    intro v n h
    cases v with
    | int m =>
        simp only [Json.int64?] at h
        split at h
        · rename_i hrange
          cases h
          exact hrange
        · cases h
    | _ => cases h
  refine everywhere_ofJson ⟨isMeasured_empty, fun field v hs => ?_, fun _ hs => hs,
    fun _ hs => hs,
    fun _ hs => hs⟩ v
  unfold assignPlain
  split
  case h_6 => exact fun n hn => hn.elim hint fun hmax => hs n (.inr hmax)
  case h_7 => exact fun n hn => hn.elim (fun hmin => hs n (.inl hmin)) hint
  all_goals exact fun n hn => hs n hn

/-- The depth limits are words of 64 bits. -/
theorem maxDepth_le_ofJson (v : Json) :
    (ofJson v).Everywhere fun s => ∀ d ∈ s.maxDepth, d ≤ UInt64.size - 1 := by
  have hnat : ∀ {v : Json} {d : Nat}, v.nat64? = some d → d ≤ UInt64.size - 1 := by
    intro v d h
    cases v with
    | int n =>
        simp only [Json.nat64?] at h
        split at h
        · cases h
          omega
        · cases h
    | _ => cases h
  refine everywhere_ofJson ⟨by simp [empty], fun field v hs => ?_, fun _ hs => hs,
    fun _ hs => hs,
    fun _ hs => hs⟩ v
  unfold assignPlain
  split
  case h_8 => exact fun d hd => hnat hd
  all_goals exact hs

end Specimen.Spec
