import Specimen.Proofs.Regex.Numbering
/-!
# The groups that a pattern counts

A token opens at most one group with an index, the next number, and a name always means a number
that was counted before. So the groups of a tree have different numbers that ascend as the groups
begin, and the references of a tree mean groups that were counted, whether a conditional hides
captures or not.
-/

namespace Specimen.Regex

variable {groups : Groups} {position : Nat} {cs : List Char}

namespace Groups

/-- Every group that is open under an index has been counted. -/
def AreCounted (groups : Groups) : Prop := ∀ i, groups.Opens i → 1 ≤ i ∧ i ≤ groups.count

/-- Between two states of the groups, the numbers from one count to the other were given out. -/
def Counts (groups groups' : Groups) (indices : List Nat) : Prop :=
  ∃ n, groups'.count = groups.count + n ∧ indices = List.range' (groups.count + 1) n

namespace Counts

variable {groups' groups'' : Groups} {is js : List Nat}

theorem refl (groups : Groups) : groups.Counts groups [] := ⟨0, rfl, rfl⟩

theorem le (h : groups.Counts groups' is) : groups.count ≤ groups'.count := by
  obtain ⟨n, hn, -⟩ := h
  omega

theorem trans (h : groups.Counts groups' is) (h' : groups'.Counts groups'' js) :
    groups.Counts groups'' (is ++ js) := by
  obtain ⟨n, hn, rfl⟩ := h
  obtain ⟨m, hm, rfl⟩ := h'
  refine ⟨n + m, by omega, ?_⟩
  rw [hn, Nat.add_right_comm, List.range'_append_1]

end Counts

/-- The groups after a token: those before it, and one more if it opens a group with an index. -/
inductive Grow (groups : Groups) : Token → Groups → Prop
  | same {t : Token} (h : t.index? = none) : Grow groups t groups
  | number : Grow groups (.opening (.group (some (groups.count + 1))))
      { groups with count := groups.count + 1 }
  | name (n : String) : Grow groups (.opening (.group (some (groups.count + 1))))
      ⟨groups.count + 1, (n, groups.count + 1) :: groups.names⟩

namespace Grow

variable {t : Token} {groups' : Groups}

/-- The index of the token is the next number. -/
theorem counts (h : groups.Grow t groups') : groups.Counts groups' t.index?.toList := by
  cases h with
  | same h =>
      rw [h]
      exact .refl groups
  | number => exact ⟨1, rfl, rfl⟩
  | name n => exact ⟨1, rfl, rfl⟩

theorem areCounted (h : groups.Grow t groups') (hcounted : groups.AreCounted) :
    groups'.AreCounted := by
  have hnames : ∀ n i, groups.names.lookup n = some i → 1 ≤ i ∧ i ≤ groups.count + 1 := by
    intro n i hn
    obtain ⟨hpos, hle⟩ := hcounted i (.inr ⟨n, hn⟩)
    exact ⟨hpos, Nat.le_succ_of_le hle⟩
  cases h with
  | same => exact hcounted
  | number =>
      rintro i (hi | ⟨n, hn⟩)
      · exact hi
      · exact hnames n i hn
  | name m =>
      rintro i (hi | ⟨n, hn⟩)
      · exact hi
      · rw [List.lookup_cons] at hn
        split at hn
        · cases hn
          exact ⟨Nat.le_add_left 1 _, Nat.le_refl _⟩
        · exact hnames n i hn

end Grow

end Groups

/-! ## One token -/

theorem grow_of_namedGroup {used : Nat} {q : Piece (Token × Groups)}
    (h : namedGroup groups used position cs = .ok q) : groups.Grow q.value.1 q.value.2 := by
  obtain ⟨⟨n, more⟩, -, h⟩ := bind_eq_ok.1 h
  cases h
  exact .name n

theorem grow_of_groupStart {q : Piece (Token × Groups)}
    (h : groupStart groups position cs = .ok q) : groups.Grow q.value.1 q.value.2 := by
  unfold groupStart at h
  split at h
  · cases h
    exact .same rfl
  · exact grow_of_namedGroup h
  · obtain ⟨⟨n, used⟩, -, h⟩ := bind_eq_ok.1 h
    dsimp only at h
    split at h <;> cases h
    exact .same rfl
  · cases h
    exact .same rfl
  · cases h
    exact .same rfl
  · exact grow_of_namedGroup h
  · cases h
    exact .same rfl
  · cases h
    exact .same rfl
  · obtain ⟨⟨⟨⟩, used⟩, -, h⟩ := bind_eq_ok.1 h
    cases h
    exact .same rfl
  · obtain ⟨⟨⟨⟩, used⟩, -, h⟩ := bind_eq_ok.1 h
    cases h
    exact .same rfl
  · unfold inlineFlags at h
    split at h <;> cases h <;> exact .same rfl
  · cases h
    exact .number

theorem index?_of_braces {q : Piece Token} (h : braces position cs = .ok q) :
    q.value.index? = none := by
  unfold braces at h
  repeat' split at h
  all_goals cases h <;> rfl

/-- A token opens the next group, or none with an index. -/
theorem grow_of_token {c : Char} {q : Piece (Token × Groups)}
    (h : token groups position c cs = .ok q) : groups.Grow q.value.1 q.value.2 := by
  cases readAs_of_token h with
  | group hgroup => exact grow_of_groupStart hgroup
  | braces hbraces => exact .same (index?_of_braces hbraces)
  | _ => exact .same rfl

/-! ## All tokens -/

/-- The groups that are open behind a station. -/
def Station.after (s : Station) : Groups :=
  match s.reading with
  | .error _ => s.groups
  | .ok q => q.value.2

/-- The groups that were counted when all stations have been read. -/
def groupsAfter (groups : Groups) (ss : List Station) : Groups :=
  ss.foldl (fun _ s => s.after) groups

/-- How many groups with an index were opened in a pattern. -/
def groupCount (pattern : String) : Nat := (groupsAfter {} (stations pattern)).count

namespace Station

theorem after_of_ok {s : Station} {q : Piece (Token × Groups)} (h : s.reading = .ok q) :
    s.after = q.value.2 := by
  rw [after, h]

theorem grow (s : Station) : s.groups.Grow s.token s.after := by
  cases h : s.reading with
  | error e =>
      rw [token_of_error h, after, h]
      exact .same rfl
  | ok q =>
      rw [token_of_ok h, after_of_ok h]
      exact grow_of_token h

end Station

/-- The indices that are opened at the stations of a text are the numbers that it counts. -/
theorem ReadsAt.counts {ss : List Station} (h : ReadsAt position groups cs ss) :
    groups.Counts (groupsAfter groups ss) (ss.filterMap (·.token.index?)) := by
  have hcons : ∀ (s : Station) (ss : List Station), (s :: ss).filterMap (·.token.index?) =
      s.token.index?.toList ++ ss.filterMap (·.token.index?) := by
    intro s ss
    cases hindex : s.token.index? <;> simp [hindex]
  induction h with
  | done => exact .refl _
  | @fault s e hreading =>
      rw [hcons]
      exact s.grow.counts.trans (.refl _)
  | @next s q ss hreading _ ih =>
      rw [hcons]
      rw [← Station.after_of_ok hreading] at ih
      exact s.grow.counts.trans ih

/-- At every station the open groups have been counted, and they are among those of the text. -/
theorem ReadsAt.areCounted {ss : List Station} (h : ReadsAt position groups cs ss)
    (hcounted : groups.AreCounted) :
    ∀ s ∈ ss, s.groups.AreCounted ∧ s.groups.count ≤ (groupsAfter groups ss).count := by
  induction h with
  | done => nofun
  | @fault s e hreading => exact List.forall_mem_singleton.2 ⟨hcounted, s.grow.counts.le⟩
  | @next s q ss hreading hrest ih =>
      have hall := (ReadsAt.next hreading hrest).counts.le
      rw [← Station.after_of_ok hreading] at ih
      exact List.forall_mem_cons.2 ⟨⟨hcounted, hall⟩, ih (s.grow.areCounted hcounted)⟩

/-! ## Trees -/

section Trees

variable {pattern : String} {tree : Construct}

theorem indices_sublist_range' (h : parse pattern = .ok tree) :
    tree.indices.Sublist (List.range' 1 (groupCount pattern)) := by
  obtain ⟨n, hn, hindices⟩ := (readsAt_stations pattern).counts
  have hcount : groupCount pattern = n := hn.trans (Nat.zero_add n)
  rw [hcount]
  exact hindices ▸ indices_sublist_of_parse h

/-- A reference of a tree means a group that was counted. -/
theorem le_groupCount_of_backref (h : parse pattern = .ok tree) {i : Nat}
    (hi : .backref i ∈ tree.nodes) : 1 ≤ i ∧ i ≤ groupCount pattern := by
  have hnone : ({} : Groups).AreCounted := by
    rintro i (⟨hpos, hle⟩ | ⟨n, hn⟩)
    · exact ⟨hpos, hle⟩
    · cases hn
  have hnodes : tree.Everywhere fun c => ∀ i, c = .backref i → 1 ≤ i ∧
      i ≤ groupCount pattern := by
    refine everywhere_of_tokens ⟨nofun, nofun, nofun⟩ (fun t ht => ?_) h
    obtain ⟨s, hs, -, hread⟩ := exists_station_of_mem_tokens h ht
    obtain ⟨hcounted, hle⟩ := (readsAt_stations pattern).areCounted hnone s hs
    refine Carries.brings ⟨fun c _ hopen i hc => ?_, fun _ hq i hc => ?_, by simp, by simp⟩ hread
    · obtain ⟨hpos, hi⟩ := hcounted i (hopen i hc)
      exact ⟨hpos, hi.trans hle⟩
    · rcases value_of_charClass hq with ⟨_, hq⟩ | ⟨_, _, hq⟩ <;> rw [hq] at hc <;> cases hc
  exact hnodes _ hi i rfl

end Trees

end Specimen.Regex
