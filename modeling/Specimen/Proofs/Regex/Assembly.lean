import Specimen.Proofs.Except
import Specimen.Proofs.Regex.Language
import Specimen.Regex.Reader
/-!
# What holds everywhere in a tree that is read

A tree is put together from what its tokens bring. A property holds of all its constructs if it
holds of these (`Token.Brings`) and of the sequences and choices that the machine makes of them
(`Joins`). `everywhere_of_parse` says which constructs a token can bring at all.
-/

namespace Specimen.Regex

/-- A run of characters ends before the first one that cannot be in it. -/
theorem span_append_cons {p : Char → Bool} {s t : List Char} {c : Char}
    (hs : ∀ d ∈ s, p d = true) (hc : p c = false) :
    (s ++ c :: t).takeWhile p = s ∧ (s ++ c :: t).dropWhile p = c :: t := by
  rw [List.takeWhile_append_of_pos hs, List.dropWhile_append_of_pos hs]
  simp [hc]

/-- A pattern has the tree of the level that its tokens fill, if they leave no group open. -/
theorem parse_eq_ok {pattern : String} {c : Construct} :
    parse pattern = .ok c ↔
      ∃ l, (tokens pattern).foldlM Reader.step {} = .ok ⟨l, []⟩ ∧ l.construct = c := by
  rw [parse, bind_eq_ok]
  constructor
  · rintro ⟨⟨l, stack⟩, hsteps, h⟩
    cases stack with
    | nil =>
        cases h
        exact ⟨l, hsteps, rfl⟩
    | cons top stack => cases h
  · rintro ⟨l, hsteps, rfl⟩
    exact ⟨⟨l, []⟩, hsteps, rfl⟩

variable {P : Construct → Prop} {limit : Nat}

/-- Whether a property holds of a construct and of all inside it. -/
def Construct.Everywhere (P : Construct → Prop) (c : Construct) : Prop := ∀ n ∈ c.nodes, P n

theorem Construct.everywhere_iff {c : Construct} :
    c.Everywhere P ↔ P c ∧ ∀ d ∈ c.parts, d.Everywhere P := by
  constructor
  · intro h
    exact ⟨h c c.self_mem_nodes, fun d hd n hn => h n (mem_nodes.2 (.inr ⟨d, hd, hn⟩))⟩
  · rintro ⟨hself, hparts⟩ n hn
    rcases mem_nodes.1 hn with rfl | ⟨d, hd, hn⟩
    · exact hself
    · exact hparts d hd n hn

theorem Construct.everywhere_of_leaf {c : Construct} (h : P c) (hparts : c.parts = []) :
    c.Everywhere P :=
  everywhere_iff.2 ⟨h, by simp [hparts]⟩

/-- The property holds of what the machine makes of up to so many branches. -/
structure Joins (P : Construct → Prop) (limit : Nat) : Prop where
  empty : P .empty
  concat : ∀ items, 2 ≤ items.length → P (.concat items)
  alternation : ∀ branches, 2 ≤ branches.length → branches.length ≤ limit →
    P (.alternation branches)

/-- The property holds of what a token brings. -/
def Token.Brings (P : Construct → Prop) : Token → Prop
  | .atom c => c.Everywhere P
  | .quantifier least most _ => ∀ body, P (.repetition least most body)
  | .opening o => ∀ body, P (Reader.grouped o body)
  | .bar | .closing _ | .fault _ => True

/-! ## The machine -/

theorem Joins.sequence (h : Joins P limit) {cs : List Construct}
    (hcs : ∀ c ∈ cs, c.Everywhere P) :
    (Construct.sequence cs).Everywhere P := by
  match cs with
  | [] => exact Construct.everywhere_of_leaf h.empty rfl
  | [c] => exact hcs c List.mem_cons_self
  | c :: d :: cs => exact Construct.everywhere_iff.2 ⟨h.concat _ (by simp), hcs⟩

theorem Joins.choice (h : Joins P limit) {cs : List Construct} (hne : cs ≠ [])
    (hlength : cs.length ≤ limit) (hcs : ∀ c ∈ cs, c.Everywhere P) :
    (Construct.choice cs).Everywhere P := by
  match cs with
  | [] => exact absurd rfl hne
  | [c] => exact hcs c List.mem_cons_self
  | c :: d :: cs => exact Construct.everywhere_iff.2 ⟨h.alternation _ (by simp) hlength, hcs⟩

/-- The property holds of what was read of a group, and at most so many bars were among it. -/
structure Level.Holds (P : Construct → Prop) (bars : Nat) (l : Level) : Prop where
  branches : ∀ c ∈ l.branches, c.Everywhere P
  items : ∀ c ∈ l.items, c.Everywhere P
  bars : l.branches.length ≤ bars

namespace Level.Holds

variable {bars : Nat} {l : Level}

theorem empty : ({} : Level).Holds P bars := ⟨by simp, by simp, Nat.zero_le _⟩

theorem mono (h : l.Holds P bars) : l.Holds P (bars + 1) :=
  ⟨h.branches, h.items, Nat.le_succ_of_le h.bars⟩

theorem push (h : l.Holds P bars) {c : Construct} (hc : c.Everywhere P) :
    (l.push c).Holds P bars :=
  ⟨h.branches, List.forall_mem_cons.2 ⟨hc, h.items⟩, h.bars⟩

theorem bar (h : l.Holds P bars) (hjoins : Joins P limit) : l.bar.Holds P (bars + 1) := by
  have hlast : (Construct.sequence l.items.reverse).Everywhere P :=
    hjoins.sequence (by simpa using h.items)
  exact ⟨List.forall_mem_cons.2 ⟨hlast, h.branches⟩, by simp [Level.bar],
    Nat.succ_le_succ h.bars⟩

theorem construct (h : l.Holds P bars) (hjoins : Joins P limit) (hbars : bars < limit) :
    l.construct.Everywhere P := by
  have hbar := h.bar hjoins
  refine hjoins.choice (by simp [Level.bar]) ?_ (by simpa using hbar.branches)
  rw [List.length_reverse]
  exact Nat.le_trans hbar.bars hbars

end Level.Holds

/-- The same for the innermost group and those around it, with what their parentheses bring. -/
structure Reader.Holds (P : Construct → Prop) (bars : Nat) (r : Reader) : Prop where
  level : r.level.Holds P bars
  stack : ∀ p ∈ r.stack, (∀ body, P (Reader.grouped p.1 body)) ∧ p.2.Holds P bars

namespace Reader.Holds

variable {bars : Nat} {r r' : Reader}

theorem mono (h : r.Holds P bars) : r.Holds P (bars + 1) :=
  ⟨h.level.mono, fun p hp => ⟨(h.stack p hp).1, (h.stack p hp).2.mono⟩⟩

/-- The last item is repeated. -/
theorem quantifier {least : Nat} {most : Option Nat} {c : Construct} {items : List Construct}
    (h : r.Holds P bars) (hitems : r.level.items = c :: items)
    (hc : P (.repetition least most c)) :
    Reader.Holds P (bars + 1)
      { r with level := { r.level with items := .repetition least most c :: items } } := by
  have hold := h.mono.level.items
  rw [hitems, List.forall_mem_cons] at hold
  have hnew : (Construct.repetition least most c).Everywhere P :=
    Construct.everywhere_iff.2 ⟨hc, List.forall_mem_singleton.2 hold.1⟩
  exact ⟨⟨h.mono.level.branches, List.forall_mem_cons.2 ⟨hnew, hold.2⟩, h.mono.level.bars⟩,
    h.mono.stack⟩

theorem step {t : Token} (h : r.Holds P bars) (hjoins : Joins P limit) (ht : t.Brings P)
    (hbars : bars < limit) (hstep : r.step t = .ok r') : r'.Holds P (bars + 1) := by
  have hlevel := h.mono.level
  have hstack := h.mono.stack
  cases t with
  | atom c =>
      cases hstep
      exact ⟨hlevel.push ht, hstack⟩
  | quantifier least most blame =>
      cases hitems : r.level.items with
      | nil =>
          simp only [Reader.step, hitems] at hstep
          cases hstep
      | cons c items =>
          simp only [Reader.step, hitems] at hstep
          cases hstep
          exact h.quantifier hitems (ht c)
  | bar =>
      cases hstep
      exact ⟨h.level.bar hjoins, hstack⟩
  | opening o =>
      cases hstep
      exact ⟨.empty, List.forall_mem_cons.2 ⟨⟨ht, hlevel⟩, hstack⟩⟩
  | closing position =>
      cases hopen : r.stack with
      | nil =>
          simp only [Reader.step, hopen] at hstep
          cases hstep
      | cons top stack =>
          simp only [Reader.step, hopen] at hstep
          cases hstep
          rw [hopen, List.forall_mem_cons] at hstack
          obtain ⟨⟨hgroup, houter⟩, hstack⟩ := hstack
          have hbody := h.level.construct hjoins hbars
          have hnew : (grouped top.1 r.level.construct).Everywhere P := by
            refine Construct.everywhere_iff.2 ⟨hgroup _, ?_⟩
            cases top.1 with
            | group index => exact List.forall_mem_singleton.2 hbody
            | look k => simp [grouped, Construct.parts]
          exact ⟨houter.push hnew, hstack⟩
  | fault e => cases hstep

theorem steps {ts : List Token} (h : r.Holds P bars) (hjoins : Joins P limit)
    (hts : ∀ t ∈ ts, t.Brings P) (hbars : bars + ts.length ≤ limit)
    (hsteps : ts.foldlM Reader.step r = .ok r') : r'.Holds P (bars + ts.length) := by
  induction ts generalizing r bars with
  | nil =>
      cases hsteps
      exact h
  | cons t ts ih =>
      rw [List.length_cons] at hbars ⊢
      rw [List.forall_mem_cons] at hts
      rw [List.foldlM_cons] at hsteps
      obtain ⟨q, hq, hsteps⟩ := bind_eq_ok.1 hsteps
      have hlast := ih (h.step hjoins hts.1 (by omega) hq) hts.2 (by omega) hsteps
      rwa [show bars + 1 + ts.length = bars + (ts.length + 1) by omega] at hlast

end Reader.Holds

theorem length_tokensFrom (skip position : Nat) (groups : Groups) (cs : List Char) :
    (tokensFrom skip position groups cs).length ≤ cs.length := by
  induction cs generalizing skip position groups with
  | nil => simp [tokensFrom]
  | cons c cs ih =>
      rw [List.length_cons]
      cases skip with
      | succ skip => exact Nat.le_succ_of_le (ih skip _ _)
      | zero =>
          unfold tokensFrom
          split
          · simp
          · exact Nat.succ_le_succ (ih _ _ _)

/-- A property of what the tokens bring and of what the machine makes of it holds everywhere. -/
theorem everywhere_of_tokens {pattern : String} {c : Construct}
    (hjoins : Joins P (pattern.length + 1)) (htokens : ∀ t ∈ tokens pattern, t.Brings P)
    (h : parse pattern = .ok c) : c.Everywhere P := by
  have hlength : (tokens pattern).length ≤ pattern.length := by
    rw [← String.length_toList]
    exact length_tokensFrom _ _ _ _
  obtain ⟨l, hsteps, rfl⟩ := parse_eq_ok.1 h
  have hstart : ({} : Reader).Holds P 0 := ⟨.empty, by simp⟩
  have hread := hstart.steps hjoins htokens (by omega) hsteps
  exact hread.level.construct hjoins (by omega)

/-! ## What tokens bring -/

/-- The constructs that a token can bring besides classes in brackets. -/
inductive Construct.IsAtomic : Construct → Prop
  | literal (c : Char) : IsAtomic (.literal c)
  | any : IsAtomic .any
  | category (k : Category) : IsAtomic (.charClass false [.category k])
  | backref (index : Nat) : IsAtomic (.backref index)
  | anchor (a : Anchor) : IsAtomic (.anchor a)
  | skipped (k : Skipped) : IsAtomic (.skipped k)

/-- Whether a group is open under this index, by its number or by a name. -/
def Groups.Opens (groups : Groups) (i : Nat) : Prop :=
  (1 ≤ i ∧ i ≤ groups.count) ∨ ∃ n, groups.names.lookup n = some i

/-- The tokens that can be read before so many characters. -/
inductive Token.IsRead (groups : Groups) (length : Nat) : Token → Prop
  | atomic {c : Construct} (h : c.IsAtomic) (hopen : ∀ i, c = .backref i → groups.Opens i) :
      IsRead groups length (.atom c)
  | charClass {position : Nat} {cs : List Char} {q : Piece Construct}
      (hlength : cs.length ≤ length) (h : charClass position cs = .ok q) :
      IsRead groups length (.atom q.value)
  | quantifier {least : Nat} {most : Option Nat} {blame : Nat} (h : ∀ m ∈ most, least ≤ m) :
      IsRead groups length (.quantifier least most blame)
  | opening (o : Opening) : IsRead groups length (.opening o)
  | bar : IsRead groups length .bar
  | closing (position : Nat) : IsRead groups length (.closing position)

section Readers

variable {groups : Groups} {length position : Nat} {cs : List Char}

theorem value_of_charClass {q : Piece Construct} (h : charClass position cs = .ok q) :
    (∃ c, q.value = .notLiteral c) ∨ ∃ negated items, q.value = .charClass negated items := by
  obtain ⟨⟨items, used⟩, -, h⟩ := bind_eq_ok.1 h
  dsimp only at h
  split at h <;> cases h
  · exact .inl ⟨_, rfl⟩
  · exact .inr ⟨_, _, rfl⟩

theorem opens_of_backref {c : Char} {q : Piece Construct} (hc : '1' ≤ c)
    (h : backref groups c cs = .ok q) : ∃ i, q.value = .backref i ∧ groups.Opens i := by
  have hfirst : 1 ≤ c.toNat - '0'.toNat := Nat.le_sub_of_add_le hc
  unfold backref at h
  dsimp only at h
  repeat' split at h
  all_goals cases h
  all_goals exact ⟨_, rfl, .inl ⟨by omega, by omega⟩⟩

theorem isRead_of_escape {q : Piece Construct} (h : escape groups position cs = .ok q) :
    (Token.atom q.value).IsRead groups length := by
  unfold escape at h
  split at h
  · cases h
  · split at h
    · cases h
      exact .atomic (.category _) nofun
    · cases h
      exact .atomic (.anchor _) nofun
    · split at h
      · rename_i hdigit
        obtain ⟨i, hi, hopens⟩ := opens_of_backref hdigit.1 h
        rw [hi]
        exact .atomic (.backref i) (by rintro _ ⟨⟩; exact hopens)
      · obtain ⟨⟨c, used⟩, -, h⟩ := bind_eq_ok.1 h
        cases h
        exact .atomic (.literal _) nofun

theorem isRead_of_braces {q : Piece Token} (h : braces position cs = .ok q) :
    q.value.IsRead groups length := by
  unfold braces at h
  split at h
  · cases h
    exact .atomic (.literal _) nofun
  · split at h
    · split at h
      · cases h
      · rename_i m hle
        cases h
        exact .quantifier (by simpa using hle)
    · cases h
      exact .quantifier (by simp)

theorem isRead_of_groupStart {q : Piece (Token × Groups)}
    (h : groupStart groups position cs = .ok q) : q.value.1.IsRead groups length := by
  have hnamed : ∀ {used position : Nat} {cs : List Char},
      namedGroup groups used position cs = .ok q → q.value.1.IsRead groups length := by
    intro used position cs h
    obtain ⟨⟨n, more⟩, -, h⟩ := bind_eq_ok.1 h
    cases h
    exact .opening _
  unfold groupStart at h
  split at h
  · cases h
    exact .opening _
  · exact hnamed h
  · obtain ⟨⟨n, used⟩, -, h⟩ := bind_eq_ok.1 h
    dsimp only at h
    split at h <;> cases h
    rename_i i hi
    exact .atomic (.backref i) (by rintro _ ⟨⟩; exact .inr ⟨n, hi⟩)
  · cases h
    exact .opening _
  · cases h
    exact .opening _
  · exact hnamed h
  · cases h
    exact .opening _
  · cases h
    exact .opening _
  · obtain ⟨⟨⟨⟩, used⟩, -, h⟩ := bind_eq_ok.1 h
    cases h
    exact .atomic (.skipped _) nofun
  · obtain ⟨⟨⟨⟩, used⟩, -, h⟩ := bind_eq_ok.1 h
    cases h
    exact .atomic (.skipped _) nofun
  · unfold inlineFlags at h
    split at h <;> cases h
    · exact .opening _
    · exact .atomic (.skipped _) nofun
  · cases h
    exact .opening _

/-- The ways in which a token is read, by its first character. -/
inductive Token.ReadAs (groups : Groups) (position : Nat) (cs : List Char) :
    Char → Piece (Token × Groups) → Prop
  | bar : ReadAs groups position cs '|' ⟨(.bar, groups), 0⟩
  | closing : ReadAs groups position cs ')' ⟨(.closing position, groups), 0⟩
  | group {q : Piece (Token × Groups)} (h : groupStart groups (position + 1) cs = .ok q) :
      ReadAs groups position cs '(' q
  | charClass {a : Piece Construct} (h : charClass (position + 1) cs = .ok a) :
      ReadAs groups position cs '[' (a.map fun a => (.atom a, groups))
  | escape {a : Piece Construct} (h : escape groups (position + 1) cs = .ok a) :
      ReadAs groups position cs '\\' (a.map fun a => (.atom a, groups))
  | quantifier {c : Char} {least : Nat} {most : Option Nat} (hc : c = '*' ∨ c = '+' ∨ c = '?')
      (hle : ∀ m ∈ most, least ≤ m) :
      ReadAs groups position cs c ⟨(.quantifier least most position, groups), suffix cs⟩
  | braces {t : Piece Token} (h : braces position cs = .ok t) :
      ReadAs groups position cs '\x7b' (t.map fun t => (t, groups))
  | single {c : Char} {a : Construct} (hc : c ≠ '\\' ∧ c ≠ '[' ∧ c ≠ '(' ∧ c ≠ ')')
      (ha : a.IsAtomic) (hbackref : ∀ i, a ≠ .backref i) :
      ReadAs groups position cs c ⟨(.atom a, groups), 0⟩

theorem readAs_of_token {c : Char} {q : Piece (Token × Groups)}
    (h : token groups position c cs = .ok q) : Token.ReadAs groups position cs c q := by
  unfold token at h
  dsimp only at h
  split at h
  · cases h
    exact .bar
  · cases h
    exact .closing
  · exact .group h
  · obtain ⟨a, ha, rfl⟩ := map_eq_ok.1 h
    exact .charClass ha
  · cases h
    exact .single (by decide) .any nofun
  · cases h
    exact .single (by decide) (.anchor _) nofun
  · cases h
    exact .single (by decide) (.anchor _) nofun
  · obtain ⟨a, ha, rfl⟩ := map_eq_ok.1 h
    exact .escape ha
  · cases h
    exact .quantifier (.inl rfl) nofun
  · cases h
    exact .quantifier (.inr (.inl rfl)) nofun
  · cases h
    exact .quantifier (.inr (.inr rfl)) (by simp)
  · obtain ⟨t, ht, rfl⟩ := map_eq_ok.1 h
    exact .braces ht
  · rename_i hclosing hopening hclass _ _ _ hescape _ _ _ _
    cases h
    exact .single ⟨hescape, hclass, hopening, hclosing⟩ (.literal _) nofun

theorem isRead_of_token {c : Char} {q : Piece (Token × Groups)} (hlength : cs.length ≤ length)
    (h : token groups position c cs = .ok q) : q.value.1.IsRead groups length := by
  cases readAs_of_token h with
  | bar => exact .bar
  | closing => exact .closing _
  | group hgroup => exact isRead_of_groupStart hgroup
  | charClass hitems => exact .charClass hlength hitems
  | escape hescape => exact isRead_of_escape hescape
  | quantifier _ hle => exact .quantifier hle
  | braces hbraces => exact isRead_of_braces hbraces
  | single _ ha hbackref => exact .atomic ha fun i hi => absurd hi (hbackref i)

end Readers

/-- The property holds of what tokens bring that are read with these groups open. -/
structure Carries (P : Construct → Prop) (groups : Groups) (length : Nat) : Prop where
  atomic : ∀ c : Construct, c.IsAtomic → (∀ i, c = .backref i → groups.Opens i) → P c
  charClass : ∀ {position : Nat} {cs : List Char} {q : Piece Construct}, cs.length ≤ length →
    charClass position cs = .ok q → P q.value
  group : ∀ index body, P (.group index body)
  repetition : ∀ least most body, (∀ m ∈ most, least ≤ m) → P (.repetition least most body)

namespace Carries

variable {length : Nat} {groups : Groups} {position : Nat} {cs : List Char}

theorem brings (h : Carries P groups length) {t : Token} (ht : t.IsRead groups length) :
    t.Brings P := by
  cases ht with
  | atomic hc hopen =>
      exact Construct.everywhere_of_leaf (h.atomic _ hc hopen) (by cases hc <;> rfl)
  | charClass hlength hq =>
      refine Construct.everywhere_of_leaf (h.charClass hlength hq) ?_
      rcases value_of_charClass hq with ⟨c, hc⟩ | ⟨negated, items, hc⟩ <;> rw [hc] <;> rfl
  | quantifier hle => exact fun body => h.repetition _ _ body hle
  | opening o =>
      cases o with
      | group index => exact h.group index
      | look k => exact fun _ => h.atomic _ (.skipped k) nofun
  | bar => trivial
  | closing position => trivial

theorem of_mem_tokensFrom (h : ∀ groups, Carries P groups length) {skip : Nat} {t : Token}
    (hlength : cs.length ≤ length) (ht : t ∈ tokensFrom skip position groups cs) :
    t.Brings P := by
  induction cs generalizing skip position groups with
  | nil => simp [tokensFrom] at ht
  | cons c cs ih =>
      rw [List.length_cons] at hlength
      cases skip with
      | succ skip => exact ih (by omega) ht
      | zero =>
          unfold tokensFrom at ht
          split at ht
          · obtain rfl := List.mem_singleton.1 ht
            trivial
          · rename_i t' groups' used htoken
            rcases List.mem_cons.1 ht with rfl | ht
            · exact (h _).brings (isRead_of_token (q := ⟨(_, _), _⟩) (by omega) htoken)
            · exact ih (by omega) ht

end Carries

/-- A property of the constructs that a pattern of that length can bring and of what the machine
makes of them holds everywhere in the tree of the pattern. -/
theorem everywhere_of_parse {pattern : String} {c : Construct}
    (hjoins : Joins P (pattern.length + 1))
    (hcarries : ∀ groups, Carries P groups pattern.length) (h : parse pattern = .ok c) :
    c.Everywhere P := by
  refine everywhere_of_tokens hjoins (fun t ht => ?_) h
  exact Carries.of_mem_tokensFrom hcarries (Nat.le_of_eq String.length_toList) ht

end Specimen.Regex
