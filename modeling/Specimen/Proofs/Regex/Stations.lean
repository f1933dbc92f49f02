import Specimen.Proofs.Regex.Extents
/-!
# The places at which tokens are read

The run of the reader over a pattern, one station for each token, and what is known at all of
them: the captures before a station are the groups that are open there, and the scan for captures
agrees with the reader on those behind it (`reached_of_mem_stations`). A conditional is read
without a look at the captures in it, so this holds if it has none (`Station.HidesNoCapture`).
-/

namespace Specimen.Regex

/-- A place at which a token is read: its first character, what is behind that, and the
groups that were opened before. -/
structure Station where
  position : Nat
  groups : Groups
  first : Char
  rest : List Char

namespace Station

def reading (s : Station) : Except PatternError (Piece (Token × Groups)) :=
  Regex.token s.groups s.position s.first s.rest

/-- The token that is read; it is the last one if it is a fault. -/
def token (s : Station) : Token :=
  match s.reading with
  | .error e => .fault e
  | .ok q => q.value.1

/-- How many characters the token has besides the first. -/
def used (s : Station) : Nat :=
  match s.reading with
  | .error _ => 0
  | .ok q => q.used

def capture? (s : Station) : Option Capture := Zone.pattern.capture? s.position s.first s.rest

theorem token_of_ok {s : Station} {q : Piece (Token × Groups)} (h : s.reading = .ok q) :
    s.token = q.value.1 := by
  rw [token, h]

theorem token_of_error {s : Station} {e : PatternError} (h : s.reading = .error e) :
    s.token = .fault e := by
  rw [token, h]

theorem used_of_ok {s : Station} {q : Piece (Token × Groups)} (h : s.reading = .ok q) :
    s.used = q.used := by
  rw [used, h]

end Station

/-- The stations of the text at `position`, after `skip` characters. -/
def stationsFrom : Nat → Nat → Groups → List Char → List Station
  | _, _, _, [] => []
  | skip + 1, position, groups, _ :: cs => stationsFrom skip (position + 1) groups cs
  | 0, position, groups, c :: cs =>
    ⟨position, groups, c, cs⟩ ::
      match token groups position c cs with
      | .error _ => []
      | .ok ⟨(_, groups), used⟩ => stationsFrom used (position + 1) groups cs

def stations (pattern : String) : List Station := stationsFrom 0 0 {} pattern.toList

theorem tokensFrom_eq (skip position : Nat) (groups : Groups) (cs : List Char) :
    tokensFrom skip position groups cs =
      (stationsFrom skip position groups cs).map Station.token := by
  induction cs generalizing skip position groups with
  | nil => rfl
  | cons c cs ih =>
      cases skip with
      | succ skip => exact ih skip _ _
      | zero =>
          rw [tokensFrom, stationsFrom, List.map_cons]
          cases htoken : token groups position c cs with
          | error e =>
              rw [Station.token_of_error (s := ⟨position, groups, c, cs⟩) htoken, List.map_nil]
          | ok q =>
              rw [Station.token_of_ok (s := ⟨position, groups, c, cs⟩) htoken]
              exact congrArg (q.value.1 :: ·) (ih q.used _ _)

theorem tokens_eq (pattern : String) : tokens pattern = (stations pattern).map Station.token :=
  tokensFrom_eq _ _ _ _

/-- A text is read at these stations. -/
inductive ReadsAt : Nat → Groups → List Char → List Station → Prop
  | done {position : Nat} {groups : Groups} : ReadsAt position groups [] []
  | fault {s : Station} {e : PatternError} (h : s.reading = .error e) :
      ReadsAt s.position s.groups (s.first :: s.rest) [s]
  | next {s : Station} {q : Piece (Token × Groups)} {ss : List Station} (h : s.reading = .ok q)
      (hrest : ReadsAt (s.position + 1 + q.used) q.value.2 (s.rest.drop q.used) ss) :
      ReadsAt s.position s.groups (s.first :: s.rest) (s :: ss)

theorem readsAt_stationsFrom (skip position : Nat) (groups : Groups) (cs : List Char) :
    ReadsAt (position + skip) groups (cs.drop skip) (stationsFrom skip position groups cs) := by
  induction cs generalizing skip position groups with
  | nil =>
      rw [List.drop_nil]
      exact .done
  | cons c cs ih =>
      cases skip with
      | succ skip =>
          have hrest := ih skip (position + 1) groups
          rwa [Nat.add_right_comm] at hrest
      | zero =>
          rw [stationsFrom]
          cases htoken : token groups position c cs with
          | error e => exact .fault (s := ⟨position, groups, c, cs⟩) htoken
          | ok q => exact .next (s := ⟨position, groups, c, cs⟩) htoken (ih _ _ _)

theorem readsAt_stations (pattern : String) :
    ReadsAt 0 {} pattern.toList (stations pattern) :=
  readsAt_stationsFrom 0 0 {} pattern.toList

/-! ## Captures by their position -/

variable {pattern : String} {position : Nat} {groups : Groups}

/-- The captures before a position. -/
def capturesBefore (pattern : String) (position : Nat) : List Capture :=
  (captures pattern).filter (·.position < position)

/-- How many captures there are up to a position, which is the number of the capture there. -/
def ordinal (pattern : String) (position : Nat) : Nat :=
  (captures pattern).countP (·.position ≤ position)

theorem capturesBefore_of_split {before after : List Capture}
    (h : captures pattern = before ++ after) (hbefore : ∀ c ∈ before, c.position < position)
    (hafter : ∀ c ∈ after, position ≤ c.position) :
    capturesBefore pattern position = before := by
  have hkept : before.filter (·.position < position) = before :=
    List.filter_eq_self.2 fun c hc => decide_eq_true (hbefore c hc)
  have hdropped : after.filter (·.position < position) = [] :=
    List.filter_eq_nil_iff.2 fun c hc => by simpa using hafter c hc
  rw [capturesBefore, h, List.filter_append, hkept, hdropped, List.append_nil]

theorem pairwise_capturesFrom (z : Zone) (position : Nat) (cs : List Char) :
    (capturesFrom z position cs).Pairwise (·.position < ·.position) := by
  induction cs generalizing z position with
  | nil => exact .nil
  | cons c cs ih =>
      refine List.pairwise_append.2 ⟨?_, ih _ _, fun a ha b hb => ?_⟩
      · cases z.capture? position c cs <;> simp
      · rw [position_of_capture? (Option.mem_toList.1 ha)]
        exact le_of_mem_capturesFrom hb

theorem ordinal_of_split {before after : List Capture} {c : Capture}
    (h : captures pattern = before ++ c :: after) :
    ordinal pattern c.position = before.length + 1 := by
  have hsorted := pairwise_capturesFrom .pattern 0 pattern.toList
  rw [show capturesFrom .pattern 0 pattern.toList = _ from h] at hsorted
  obtain ⟨-, hafter, hbefore⟩ := List.pairwise_append.1 hsorted
  have hup : before.countP (·.position ≤ c.position) = before.length :=
    List.countP_eq_length.2 fun d hd =>
      decide_eq_true (Nat.le_of_lt (hbefore d hd c List.mem_cons_self))
  have hbeyond : after.countP (·.position ≤ c.position) = 0 :=
    List.countP_eq_zero.2 fun d hd => by
      simpa using (List.pairwise_cons.1 hafter).1 d hd
  rw [ordinal, h, List.countP_append, List.countP_cons, hup, hbeyond]
  simp

/-! ## Stations that the scan reaches -/

/-- The reader is at a place of the pattern, with the captures before it as its groups. -/
structure Reached (pattern : String) (position : Nat) (groups : Groups) (cs : List Char) :
    Prop where
  split : captures pattern =
    capturesBefore pattern position ++ capturesFrom .pattern position cs
  groups : groups = (capturesBefore pattern position).foldl Groups.add {}

theorem Reached.start (pattern : String) : Reached pattern 0 {} pattern.toList := by
  have hnone : capturesBefore pattern 0 = [] :=
    capturesBefore_of_split (List.nil_append _).symm nofun fun c _ => Nat.zero_le _
  exact ⟨by rw [hnone]; rfl, by rw [hnone]; rfl⟩

theorem capturesFrom_of_agrees {c : Char} {cs : List Char} {q : Piece (Token × Groups)}
    (h : Agrees groups position c cs q) :
    capturesFrom .pattern position (c :: cs) = (Zone.pattern.capture? position c cs).toList ++
      capturesFrom .pattern (position + 1 + q.used) (cs.drop q.used) := by
  rw [capturesFrom, h.behind]

theorem Reached.step {c : Char} {cs : List Char} {q : Piece (Token × Groups)}
    (h : Reached pattern position groups (c :: cs)) (hq : Agrees groups position c cs q) :
    Reached pattern (position + 1 + q.used) q.value.2 (cs.drop q.used) := by
  have hsplit : captures pattern =
      (capturesBefore pattern position ++ (Zone.pattern.capture? position c cs).toList) ++
        capturesFrom .pattern (position + 1 + q.used) (cs.drop q.used) := by
    rw [h.split, capturesFrom_of_agrees hq, List.append_assoc]
  have hbefore : capturesBefore pattern (position + 1 + q.used) =
      capturesBefore pattern position ++ (Zone.pattern.capture? position c cs).toList := by
    refine capturesBefore_of_split hsplit (fun d hd => ?_) fun d hd => le_of_mem_capturesFrom hd
    rcases List.mem_append.1 hd with hd | hd
    · have hlt : d.position < position := by simpa using (List.mem_filter.1 hd).2
      omega
    · rw [position_of_capture? (Option.mem_toList.1 hd)]
      omega
  refine ⟨by rw [hbefore]; exact hsplit, ?_⟩
  rw [hq.after, h.groups, hbefore, List.foldl_append]

def Token.isConditional : Token → Bool
  | .atom (.skipped .conditional) => true
  | _ => false

/-- If a conditional is read, the captures behind its parenthesis are those behind all of it. -/
def Station.HidesNoCapture (s : Station) : Prop :=
  s.token.isConditional = true →
    capturesFrom (Zone.pattern.next s.first s.rest) (s.position + 1) s.rest =
      capturesFrom .pattern (s.position + 1 + s.used) (s.rest.drop s.used)

instance : DecidablePred Station.HidesNoCapture := fun _ => inferInstanceAs (Decidable (_ → _))

namespace Station

variable {s : Station} {q : Piece (Token × Groups)}

theorem agrees (hs : s.HidesNoCapture) (h : s.reading = .ok q) :
    Agrees s.groups s.position s.first s.rest q := by
  refine agrees_of_token (fun hconditional => ?_) h
  have hbehind := hs (by rw [token_of_ok h, hconditional]; rfl)
  rwa [used_of_ok h] at hbehind

end Station

theorem ReadsAt.reached {cs : List Char} {ss : List Station} (h : ReadsAt position groups cs ss)
    (hreached : Reached pattern position groups cs) (hquiet : ∀ s ∈ ss, s.HidesNoCapture) :
    ∀ s ∈ ss, Reached pattern s.position s.groups (s.first :: s.rest) := by
  induction h with
  | done => nofun
  | fault => exact List.forall_mem_singleton.2 hreached
  | next hreading _ ih =>
      rw [List.forall_mem_cons] at hquiet ⊢
      exact ⟨hreached, ih (hreached.step (Station.agrees hquiet.1 hreading)) hquiet.2⟩

theorem reached_of_mem_stations (hquiet : ∀ s ∈ stations pattern, s.HidesNoCapture) {s : Station}
    (hs : s ∈ stations pattern) : Reached pattern s.position s.groups (s.first :: s.rest) :=
  (readsAt_stations pattern).reached (.start pattern) hquiet s hs

/-- The captures of a text that is read to its end are all read. -/
theorem ReadsAt.exists_capture {cs : List Char} {ss : List Station}
    (h : ReadsAt position groups cs ss) (hquiet : ∀ s ∈ ss, s.HidesNoCapture)
    (hok : ∀ s ∈ ss, ∀ e, s.token ≠ .fault e) {c : Capture}
    (hc : c ∈ capturesFrom .pattern position cs) : ∃ s ∈ ss, s.capture? = some c := by
  induction h with
  | done => cases hc
  | fault hreading =>
      exact absurd (Station.token_of_error hreading) (hok _ List.mem_cons_self _)
  | next hreading _ ih =>
      rw [List.forall_mem_cons] at hquiet hok
      rw [capturesFrom_of_agrees (Station.agrees hquiet.1 hreading)] at hc
      rcases List.mem_append.1 hc with hc | hc
      · exact ⟨_, List.mem_cons_self, Option.mem_toList.1 hc⟩
      · obtain ⟨s, hs, hcapture⟩ := ih hquiet.2 hok.2 hc
        exact ⟨s, List.mem_cons_of_mem _ hs, hcapture⟩

end Specimen.Regex
