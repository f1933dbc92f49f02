import Specimen.Proofs.Regex.Complaints
import Specimen.Proofs.Regex.Indices
import Specimen.Proofs.Regex.Stations
/-!
# The numbers of groups

The groups of a pattern are its capturing parentheses, numbered in their order, and a reference
means the group of the capture with its number, or of the last capture before it with its name.
This needs that no conditional hides a capture: the reader skips the branches of a conditional,
and the groups behind it have the numbers of those that were skipped.
-/

namespace Specimen.Regex

variable {pattern : String}

/-! ## References -/

theorem count_foldl_add (groups : Groups) (cs : List Capture) :
    (cs.foldl Groups.add groups).count = groups.count + cs.length := by
  induction cs generalizing groups with
  | nil => rfl
  | cons c cs ih =>
      rw [List.foldl_cons, ih, List.length_cons, Nat.add_comm cs.length, ← Nat.add_assoc]
      rfl

/-- The last capture with a name. -/
def lastNamed (cs : List Capture) (n : String) : Option Capture :=
  cs.reverse.find? (·.name = some n)

theorem lookup_foldl_add {before after : List Capture} (h : captures pattern = before ++ after)
    (n : String) : (before.foldl Groups.add {}).names.lookup n =
      (lastNamed before n).map fun c => ordinal pattern c.position := by
  -- From the end, as the last capture of a name stands first among the names.
  induction before using List.reverseRecOn generalizing after with
  | nil => rfl
  | append_singleton before c ih =>
      rw [List.append_assoc, List.singleton_append] at h
      have hcount : (before.foldl Groups.add {}).count + 1 = ordinal pattern c.position := by
        rw [ordinal_of_split h, count_foldl_add]
        exact congrArg (· + 1) (Nat.zero_add _)
      rw [List.foldl_append, lastNamed, List.reverse_append, List.reverse_singleton,
        List.singleton_append, List.find?_cons, List.foldl_cons, List.foldl_nil, Groups.add,
        hcount]
      cases hname : c.name with
      | none => simpa [lastNamed] using ih h
      | some m =>
          rcases eq_or_ne m n with rfl | hne
          · simp
          · have hother : (n == m) = false := beq_eq_false_iff_ne.2 hne.symm
            simpa [lastNamed, List.lookup_cons, hne, hother] using ih h

namespace Reached

variable {position : Nat} {groups : Groups} {cs : List Char}

theorem count (h : Reached pattern position groups cs) :
    groups.count = (capturesBefore pattern position).length := by
  rw [h.groups, count_foldl_add]
  exact Nat.zero_add _

theorem lookup (h : Reached pattern position groups cs) (n : String) :
    groups.names.lookup n =
      (lastNamed (capturesBefore pattern position) n).map
        fun c => ordinal pattern c.position := by
  rw [h.groups]
  exact lookup_foldl_add h.split n

/-- A group that is open is that of a capture before. -/
theorem exists_of_opens (h : Reached pattern position groups cs) {i : Nat}
    (hi : groups.Opens i) :
    ∃ c ∈ capturesBefore pattern position, ordinal pattern c.position = i := by
  rcases hi with ⟨hpos, hle⟩ | ⟨n, hn⟩
  · rw [h.count] at hle
    have hlt : i - 1 < (capturesBefore pattern position).length := by omega
    have hsplit := (List.take_append_drop (i - 1) (capturesBefore pattern position)).symm
    rw [List.drop_eq_getElem_cons hlt] at hsplit
    have hcaptures := h.split
    rw [hsplit, List.append_assoc, List.cons_append] at hcaptures
    refine ⟨_, List.getElem_mem hlt, ?_⟩
    rw [ordinal_of_split hcaptures, List.length_take]
    omega
  · rw [h.lookup] at hn
    obtain ⟨c, hc, hordinal⟩ := Option.map_eq_some_iff.1 hn
    exact ⟨c, List.mem_reverse.1 (List.mem_of_find?_eq_some hc), hordinal⟩

end Reached

/-! ## Stations and captures -/

theorem Agrees.index? {groups : Groups} {position : Nat} {c : Char} {cs : List Char}
    {q : Piece (Token × Groups)} (h : Agrees groups position c cs q) :
    q.value.1.index? = (Zone.pattern.capture? position c cs).map fun _ => groups.count + 1 := by
  refine Option.ext fun i => ?_
  rw [Token.index?_eq_some, h.opening, Option.map_eq_some_iff, Option.isSome_iff_exists]
  grind

theorem Agrees.count {groups : Groups} {position : Nat} {c : Char} {cs : List Char}
    {q : Piece (Token × Groups)} (h : Agrees groups position c cs q) :
    q.value.2.count = groups.count + (Zone.pattern.capture? position c cs).toList.length := by
  rw [h.after, count_foldl_add]

/-- The indices that are opened in a text follow those before it. -/
theorem ReadsAt.indices {position : Nat} {groups : Groups} {cs : List Char} {ss : List Station}
    (h : ReadsAt position groups cs ss) (hquiet : ∀ s ∈ ss, s.HidesNoCapture) :
    (ss.filterMap (·.token.index?)).Sublist
      (List.range' (groups.count + 1) (capturesFrom .pattern position cs).length) := by
  induction h with
  | done => exact .refl _
  | fault hreading => simp [Station.token_of_error hreading, Token.index?]
  | next hreading _ ih =>
      rw [List.forall_mem_cons] at hquiet
      have hagrees := Station.agrees hquiet.1 hreading
      have hrest := ih hquiet.2
      rw [hagrees.count] at hrest
      rw [capturesFrom_of_agrees hagrees, List.filterMap_cons, Station.token_of_ok hreading,
        hagrees.index?]
      cases hcapture : Zone.pattern.capture? _ _ _ with
      | none => simpa [hcapture] using hrest
      | some c =>
          rw [hcapture] at hrest
          simp only [Option.map_some, Option.toList_some, List.singleton_append,
            List.length_cons,
            List.range'_succ]
          exact hrest.cons_cons _

/-! ## Groups and references of a pattern -/

/-- The groups of a tree are captures of the pattern, in their order, and its
references mean such. Every capture was read as a group, also one that is left out of
the tree with a lookaround. -/
structure TreeNumbering (pattern : String) (tree : Construct) : Prop where
  /-- The index of a group is the number of the capture that opened it. -/
  group : ∀ i body, .group (some i) body ∈ tree.nodes → ∃ c ∈ captures pattern,
    i = ordinal pattern c.position ∧
      ∃ s ∈ stations pattern, s.position = c.position ∧ s.token = .opening (.group (some i))
  order : tree.indices.Sublist (List.range' 1 (captures pattern).length)
  captured : ∀ c ∈ captures pattern, ∃ s ∈ stations pattern,
    s.position = c.position ∧ s.token = .opening (.group (some (ordinal pattern c.position)))
  /-- A reference means a capture, which may be in a lookaround. -/
  backref : ∀ i, .backref i ∈ tree.nodes → ∃ c ∈ captures pattern, i = ordinal pattern c.position

/-- The groups of a pattern have the numbers of its captures, and its references mean these. -/
structure Numbering (pattern : String) : Prop where
  /-- What opens a group with an index is a capture, and the index is its number. -/
  opening : ∀ s ∈ stations pattern, ∀ i, s.token = .opening (.group (some i)) →
    (∃ c ∈ captures pattern, c.position = s.position) ∧ i = ordinal pattern s.position
  /-- A reference by one or two digits means that group, and is at fault only if fewer
  captures stand before it. -/
  number : ∀ s ∈ stations pattern, ∀ n more, 1 ≤ n → n ≤ 99 → s.first = '\\' →
    s.rest = digits n ++ more → (n < 10 → ∀ c ∈ more.head?, c.isDigit = false) →
    s.token =
      if n ≤ (capturesBefore pattern s.position).length then .atom (.backref n)
      else .fault (.unknownGroup (toString n))
  /-- A reference by name means the last capture before it with that name. -/
  name : ∀ s ∈ stations pattern, ∀ w more, w ≠ [] →
    (∀ c ∈ w, Text.isAlphanumeric c = true ∨ c = '_') → s.first = '(' →
    s.rest = '?' :: 'P' :: '=' :: (w ++ ')' :: more) →
    s.token =
      (lastNamed (capturesBefore pattern s.position) (String.ofList w)).elim
        (.fault (.unknownGroup (String.ofList w)))
        fun c => .atom (.backref (ordinal pattern c.position))
  /-- A pattern is answered with an unknown group only for a reference
  without a capture before it. -/
  unknown : ∀ w, parse pattern = .error (.unknownGroup w) →
    ∃ s ∈ stations pattern, s.token = .fault (.unknownGroup w) ∧
      ((∃ n more, s.first = '\\' ∧ s.rest = digits n ++ more ∧ w = toString n ∧
          (capturesBefore pattern s.position).length < n) ∨
        ∃ more, s.first = '(' ∧ s.rest = '?' :: 'P' :: '=' :: (w.toList ++ ')' :: more) ∧
          lastNamed (capturesBefore pattern s.position) w = none)
  tree : ∀ tree, parse pattern = .ok tree → TreeNumbering pattern tree

section Stations

variable {s : Station}

/-- A station that opens a group is a capture, and the index is the number of that capture. -/
theorem Reached.of_opening (h : Reached pattern s.position s.groups (s.first :: s.rest))
    (hquiet : s.HidesNoCapture) {i : Nat} (ht : s.token = .opening (.group (some i))) :
    ∃ c ∈ captures pattern, c.position = s.position ∧ i = ordinal pattern s.position := by
  cases hreading : s.reading with
  | error e =>
      rw [Station.token_of_error hreading] at ht
      cases ht
  | ok q =>
      have hagrees := Station.agrees hquiet hreading
      rw [Station.token_of_ok hreading, hagrees.opening, Option.isSome_iff_exists] at ht
      obtain ⟨⟨c, hc⟩, hi⟩ := ht
      have hsplit := h.split
      rw [capturesFrom_of_agrees hagrees, hc, Option.toList_some,
        List.singleton_append] at hsplit
      have hposition := position_of_capture? hc
      refine ⟨c, by rw [hsplit]; simp, hposition, ?_⟩
      rw [hi, ← hposition, ordinal_of_split hsplit, h.count]

/-- A station that is a capture opens the group with its number. -/
theorem Reached.of_capture (h : Reached pattern s.position s.groups (s.first :: s.rest))
    (hquiet : s.HidesNoCapture) (hok : ∀ e, s.token ≠ .fault e) {c : Capture}
    (hc : s.capture? = some c) :
    s.position = c.position ∧
    s.token = .opening (.group (some (ordinal pattern c.position))) := by
  have hposition := position_of_capture? hc
  cases hreading : s.reading with
  | error e => exact absurd (Station.token_of_error hreading) (hok e)
  | ok q =>
      have hagrees := Station.agrees hquiet hreading
      have hopening : s.token = .opening (.group (some (s.groups.count + 1))) := by
        rw [Station.token_of_ok hreading, hagrees.opening]
        exact ⟨by rw [show Zone.capture? _ _ _ _ = _ from hc]; rfl, rfl⟩
      obtain ⟨-, -, -, hordinal⟩ := h.of_opening hquiet hopening
      rw [hopening, hordinal, hposition]
      exact ⟨rfl, rfl⟩

theorem Reached.token_of_number (h : Reached pattern s.position s.groups (s.first :: s.rest))
    {n : Nat} {more : List Char} (hpos : 1 ≤ n) (hlt : n ≤ 99) (hfirst : s.first = '\\')
    (hrest : s.rest = digits n ++ more) (hmore : n < 10 → ∀ c ∈ more.head?, c.isDigit = false) :
    s.token =
      if n ≤ (capturesBefore pattern s.position).length then .atom (.backref n)
      else .fault (.unknownGroup (toString n)) := by
  have hescape := @escape_of_digits s.groups n hpos hlt (s.position + 1) more hmore
  rw [← hrest, h.count] at hescape
  have hreading : s.reading =
      (escape s.groups (s.position + 1) s.rest).map (·.map fun a => (.atom a, s.groups)) := by
    rw [Station.reading, hfirst]
    rfl
  rw [hescape] at hreading
  split at hreading
  · rw [Station.token_of_error hreading, if_neg (by omega)]
  · rw [Station.token_of_ok hreading, if_pos (by omega)]
    rfl

theorem name_of_word {terminator : Char} {w : List Char}
    (hterminator : ¬ (Text.isAlphanumeric terminator = true ∨ terminator = '_'))
    (hw : ∀ c ∈ w, Text.isAlphanumeric c = true ∨ c = '_') (acc more : List Char)
    (used position : Nat) (hne : acc ≠ [] ∨ w ≠ []) :
    name terminator acc used position (w ++ terminator :: more) =
      .ok ⟨String.ofList (acc.reverse ++ w), used + w.length + 1⟩ := by
  induction w generalizing acc used position with
  | nil =>
      have hacc : acc.isEmpty = false := by simpa using hne
      simp [name, hacc]
  | cons c w ih =>
      obtain ⟨hc, hw⟩ := List.forall_mem_cons.1 hw
      have hother : c ≠ terminator := by
        rintro rfl
        exact hterminator hc
      rw [List.cons_append, name, if_neg hother, if_pos hc, ih hw _ _ _ (.inl (by simp))]
      simp [Nat.add_right_comm, Nat.add_assoc]

theorem Reached.token_of_name (h : Reached pattern s.position s.groups (s.first :: s.rest))
    {w more : List Char} (hne : w ≠ []) (hw : ∀ c ∈ w, Text.isAlphanumeric c = true ∨ c = '_')
    (hfirst : s.first = '(') (hrest : s.rest = '?' :: 'P' :: '=' :: (w ++ ')' :: more)) :
    s.token =
      (lastNamed (capturesBefore pattern s.position) (String.ofList w)).elim
        (.fault (.unknownGroup (String.ofList w)))
        fun c => .atom (.backref (ordinal pattern c.position)) := by
  have hclosing : ¬ (Text.isAlphanumeric ')' = true ∨ ')' = '_') := by decide
  have hname := name_of_word hclosing hw [] more 0 (s.position + 4) (.inr hne)
  have hreading : s.reading = (s.groups.names.lookup (String.ofList w)).elim
      (.error (.unknownGroup (String.ofList w)))
      fun i => .ok ⟨(.atom (.backref i), s.groups), w.length + 1 + 3⟩ := by
    have hstart : s.reading = groupStart s.groups (s.position + 1) s.rest := by
      rw [Station.reading, hfirst]
      rfl
    rw [hstart, hrest, groupStart, hname, Nat.zero_add]
    simp only [bind, Except.bind, List.reverse_nil, List.nil_append]
    cases s.groups.names.lookup (String.ofList w) <;> rfl
  rw [h.lookup] at hreading
  cases hlast : lastNamed (capturesBefore pattern s.position) (String.ofList w) with
  | none =>
      rw [hlast] at hreading
      exact Station.token_of_error hreading
  | some c =>
      rw [hlast] at hreading
      exact Station.token_of_ok hreading

/-- A station that is at fault for a group refers to none of the captures before it. -/
theorem Reached.of_unknownGroup (h : Reached pattern s.position s.groups (s.first :: s.rest))
    {w : String} (ht : s.token = .fault (.unknownGroup w)) :
    (∃ n more, s.first = '\\' ∧ s.rest = digits n ++ more ∧ w = toString n ∧
        (capturesBefore pattern s.position).length < n) ∨
      ∃ more, s.first = '(' ∧ s.rest = '?' :: 'P' :: '=' :: (w.toList ++ ')' :: more) ∧
        lastNamed (capturesBefore pattern s.position) w = none := by
  cases hreading : s.reading with
  | ok q =>
      have hread := isRead_of_token (Nat.le_refl _) hreading
      rw [← Station.token_of_ok hreading, ht] at hread
      cases hread
  | error e =>
      rw [Station.token_of_error hreading] at ht
      cases ht
      obtain ⟨place, f, ⟨⟩, -⟩ | ⟨_, ⟨⟩, hlacks⟩ := faults_of_token hreading
      generalize hfirst : s.first = first at hlacks
      generalize hrest : s.rest = rest at hlacks
      cases hlacks with
      | number hpos hlt hcount =>
          rw [h.count] at hcount
          exact .inl ⟨_, _, rfl, rfl, rfl, hcount⟩
      | name hnames =>
          rw [h.lookup, Option.map_eq_none_iff] at hnames
          exact .inr ⟨_, rfl, by rw [String.toList_ofList], hnames⟩

end Stations

/-- In a pattern with a tree, every token is one that was read at a station. -/
theorem exists_station_of_mem_tokens {tree : Construct} (h : parse pattern = .ok tree)
    {t : Token} (ht : t ∈ tokens pattern) :
    ∃ s ∈ stations pattern, s.token = t ∧ t.IsRead s.groups s.rest.length := by
  have hok := not_fault_of_parse h
  rw [tokens_eq] at ht hok
  obtain ⟨s, hs, rfl⟩ := List.mem_map.1 ht
  refine ⟨s, hs, rfl, ?_⟩
  cases hreading : s.reading with
  | error e =>
      rw [Station.token_of_error hreading] at ht
      exact absurd ht (hok e)
  | ok q =>
      rw [Station.token_of_ok hreading]
      exact isRead_of_token (Nat.le_refl _) hreading

theorem indices_sublist_of_parse {tree : Construct} (h : parse pattern = .ok tree) :
    tree.indices.Sublist ((stations pattern).filterMap (·.token.index?)) := by
  have hsub := indices_of_parse h fun a ha => by
    obtain ⟨s, -, -, hs⟩ := exists_station_of_mem_tokens h ha
    exact indices_of_isRead hs
  rwa [tokens_eq, List.filterMap_map] at hsub

theorem exists_capture_of_backref (hquiet : ∀ s ∈ stations pattern, s.HidesNoCapture)
    {tree : Construct} (h : parse pattern = .ok tree) {i : Nat} (hi : .backref i ∈ tree.nodes) :
    ∃ c ∈ captures pattern, i = ordinal pattern c.position := by
  have hnodes : tree.Everywhere fun c => ∀ i, c = .backref i →
      ∃ k ∈ captures pattern, i = ordinal pattern k.position := by
    refine everywhere_of_tokens ⟨nofun, nofun, nofun⟩ (fun t ht => ?_) h
    obtain ⟨s, hs, -, hread⟩ := exists_station_of_mem_tokens h ht
    refine Carries.brings ⟨fun c _ hopen i hc => ?_, fun _ hq i hc => ?_, by simp, by simp⟩ hread
    · obtain ⟨k, hk, hordinal⟩ :=
        (reached_of_mem_stations hquiet hs).exists_of_opens (hopen i hc)
      exact ⟨k, (List.mem_filter.1 hk).1, hordinal.symm⟩
    · rcases value_of_charClass hq with ⟨_, hq⟩ | ⟨_, _, hq⟩ <;> rw [hq] at hc <;> cases hc
  exact hnodes _ hi i rfl

theorem treeNumbering_of_parse (hquiet : ∀ s ∈ stations pattern, s.HidesNoCapture)
    {tree : Construct} (h : parse pattern = .ok tree) : TreeNumbering pattern tree := by
  have hreached := fun s hs => reached_of_mem_stations (s := s) hquiet hs
  have hok : ∀ s ∈ stations pattern, ∀ e, s.token ≠ .fault e := by
    intro s hs e he
    apply not_fault_of_parse h e
    rw [tokens_eq, ← he]
    exact List.mem_map_of_mem hs
  have hindices := indices_sublist_of_parse h
  refine ⟨fun i body hi => ?_, ?_, fun c hc => ?_, fun i => exists_capture_of_backref hquiet h⟩
  · have hmem : i ∈ tree.indices := List.mem_filterMap.2 ⟨_, hi, rfl⟩
    obtain ⟨s, hs, hindex⟩ := List.mem_filterMap.1 (hindices.subset hmem)
    have hopening := Token.index?_eq_some.1 hindex
    obtain ⟨c, hc, hposition, hordinal⟩ := (hreached s hs).of_opening (hquiet s hs) hopening
    exact ⟨c, hc, hposition ▸ hordinal, s, hs, hposition.symm, hopening⟩
  · exact hindices.trans ((readsAt_stations pattern).indices hquiet)
  · obtain ⟨s, hs, hcapture⟩ := (readsAt_stations pattern).exists_capture hquiet hok hc
    exact ⟨s, hs, (hreached s hs).of_capture (hquiet s hs) (hok s hs) hcapture⟩

/-- Where no conditional hides a capture, the groups of a pattern have the numbers of its
captures, and its references mean these. -/
theorem numbering (hquiet : ∀ s ∈ stations pattern, s.HidesNoCapture) : Numbering pattern where
  opening s hs i ht := by
    obtain ⟨c, hc, hposition, hordinal⟩ :=
      (reached_of_mem_stations hquiet hs).of_opening (hquiet s hs) ht
    exact ⟨⟨c, hc, hposition⟩, hordinal⟩
  number s hs n more hpos hlt hfirst hrest hmore :=
    (reached_of_mem_stations hquiet hs).token_of_number hpos hlt hfirst hrest hmore
  name s hs w more hne hw hfirst hrest :=
    (reached_of_mem_stations hquiet hs).token_of_name hne hw hfirst hrest
  unknown w h := by
    have hfault := fault_of_parse_unknownGroup h
    rw [tokens_eq] at hfault
    obtain ⟨s, hs, ht⟩ := List.mem_map.1 hfault
    exact ⟨s, hs, ht, (reached_of_mem_stations hquiet hs).of_unknownGroup ht⟩
  tree tree h := treeNumbering_of_parse hquiet h

/-- Captures with a name, in a lookahead and behind a class, a comment and a conditional that
have parentheses of their own. -/
def guarded : String := "(?P<n>a)(?=(b))[(]\\((?#()(?(1)x|y)(c)\\3(?P=n)"

example : captures guarded = [⟨0, some "n"⟩, ⟨11, none⟩, ⟨34, none⟩] := by decide +kernel

theorem numbering_guarded :
    (∀ s ∈ stations guarded, s.HidesNoCapture) ∧ Numbering guarded := by
  have hquiet : ∀ s ∈ stations guarded, s.HidesNoCapture := by decide +kernel
  exact ⟨hquiet, numbering hquiet⟩

/-- A conditional with a capture, and another capture behind it. -/
def unguarded : String := "(a)(?(1)(b)|c)(d)"

/-- The third capture gets the number of the one that the conditional hides. -/
theorem not_numbering_unguarded :
    parse unguarded = .ok (.concat [.group (some 1) (.literal 'a'), .skipped .conditional,
      .group (some 2) (.literal 'd')]) ∧
    captures unguarded = [⟨0, none⟩, ⟨8, none⟩, ⟨14, none⟩] ∧ ¬ Numbering unguarded := by
  refine ⟨by cbv, by decide +kernel, fun h => ?_⟩
  have hthird : (stations unguarded).any (fun s =>
      s.token.index? = some 2 ∧ ordinal unguarded s.position = 3) = true := by decide +kernel
  obtain ⟨s, hs, hfound⟩ := List.any_eq_true.1 hthird
  obtain ⟨hindex, hordinal⟩ := of_decide_eq_true hfound
  obtain ⟨-, htwo⟩ := h.opening s hs 2 (Token.index?_eq_some.1 hindex)
  rw [hordinal] at htwo
  cases htwo

end Specimen.Regex
