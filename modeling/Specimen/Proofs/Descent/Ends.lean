import Specimen.Proofs.Descent.Basic
/-!
# How a descent ends

`Ends` says of a computation that it has a result, that all it puts on record is safe, that it
complains of no place outside the pattern, and what holds of its result and of the cursor after
it. There is one rule for each way to move the cursor, and one for all loops: if every turn but
the last one brings the cursor forward, then the loop ends with fuel for one turn more than there
are characters left (`Ends.loop`).
-/

namespace Specimen.Regex.Descent

variable {α β σ : Type} {chars cs : List Char} {p : Nat} {g : Groups}

/-! ## The text at the cursor -/

/-- The characters from a position on. -/
structure At (chars : List Char) (p : Nat) (cs : List Char) : Prop where
  drop : chars.drop p = cs
  le : p ≤ chars.length

namespace At

theorem start (chars : List Char) : At chars 0 chars := ⟨rfl, Nat.zero_le _⟩

theorem of_le (h : p ≤ chars.length) : At chars p (chars.drop p) := ⟨rfl, h⟩

theorem length_add (h : At chars p cs) : p + cs.length = chars.length := by
  rw [← h.drop, List.length_drop, Nat.add_sub_cancel' h.le]

theorem append {s : List Char} (h : At chars p (s ++ cs)) : At chars (p + s.length) cs := by
  have hlength := h.length_add
  rw [List.length_append] at hlength
  refine ⟨?_, by omega⟩
  rw [← List.drop_drop, h.drop, List.drop_left]

theorem next {c : Char} (h : At chars p (c :: cs)) : At chars (p + 1) cs := h.append (s := [c])

theorem add {n : Nat} (h : At chars p cs) (hle : p + n ≤ chars.length) :
    At chars (p + n) (cs.drop n) := by
  refine ⟨?_, hle⟩
  rw [← List.drop_drop, h.drop]

theorem getElem? (h : At chars p cs) (n : Nat) : chars[p + n]? = cs[n]? := by
  rw [← h.drop, List.getElem?_drop]

theorem getElem?_self (h : At chars p cs) : chars[p]? = cs.head? := by
  rw [List.head?_eq_getElem?, ← h.getElem?, Nat.add_zero]

theorem le_of_cons {c : Char} (h : At chars p (c :: cs)) : p + 1 ≤ chars.length := h.next.le

end At

/-! ## Computations -/

theorem bind_of_ok {y : Descent β} {f : β → Descent α} {b : β} {c c' : Cursor}
    (h : y chars c = some (.ok b, c')) : (y >>= f) chars c = f b chars c' := by
  change (y chars c).bind _ = _
  rw [h]
  rfl

theorem bind_of_error {y : Descent β} {f : β → Descent α} {e : PatternError} {c c' : Cursor}
    (h : y chars c = some (.error e, c')) : (y >>= f) chars c = some (.error e, c') := by
  change (y chars c).bind _ = _
  rw [h]
  rfl

/-- What is said of a result, of the position of the cursor and of the groups. -/
abbrev Post (α : Type) : Type := Except PatternError α → Nat → Groups → Prop

def IsSafe (chars : List Char) (record : List Event) : Prop :=
  ∀ e ∈ record, e.IsSafe chars.length

/-- A computation has ended with a result and a cursor. -/
structure Outcome (chars : List Char) (Q : Post α) (r : Except PatternError α) (c : Cursor) :
    Prop where
  le : c.position ≤ chars.length
  safe : IsSafe chars c.record
  complaint_le : ∀ q f, r = .error (.at q f) → q ≤ chars.length
  post : Q r c.position c.groups

/-- A computation ends from a position in the pattern, whatever safe events are on record. -/
def Ends (chars : List Char) (x : Descent α) (p : Nat) (g : Groups) (Q : Post α) : Prop :=
  ∀ record, p ≤ chars.length → IsSafe chars record →
    ∃ r c, x chars ⟨p, g, record⟩ = some (r, c) ∧ Outcome chars Q r c

namespace Ends

variable {Q : Post α} {x : Descent α}

theorem of_le (h : p ≤ chars.length → Ends chars x p g Q) : Ends chars x p g Q :=
  fun record hle => h hle record hle

theorem mono {P : Post α} (h : Ends chars x p g P)
    (hQ : ∀ r p' g', p' ≤ chars.length → P r p' g' → Q r p' g') : Ends chars x p g Q := by
  intro record hle hsafe
  obtain ⟨r, c, hx, hc⟩ := h record hle hsafe
  exact ⟨r, c, hx, hc.le, hc.safe, hc.complaint_le, hQ _ _ _ hc.le hc.post⟩

theorem pure {a : α} (h : Q (.ok a) p g) : Ends chars (pure a) p g Q :=
  fun _ hle hsafe => ⟨_, _, rfl, hle, hsafe, nofun, h⟩

theorem complain {f : Fault} (h : Q (.error (.at p f)) p g) : Ends chars (complain f) p g Q :=
  fun _ hle hsafe => ⟨_, _, rfl, hle, hsafe, by rintro _ _ ⟨⟩; exact hle, h⟩

theorem unknownGroup {n : String} (h : Q (.error (.unknownGroup n)) p g) :
    Ends chars (throw (.unknownGroup n)) p g Q :=
  fun _ hle hsafe => ⟨_, _, rfl, hle, hsafe, nofun, h⟩

theorem bind {P : Post β} {y : Descent β} {f : β → Descent α} (hy : Ends chars y p g P)
    (hok : ∀ b p' g', p' ≤ chars.length → P (.ok b) p' g' → Ends chars (f b) p' g' Q)
    (herror : ∀ e p' g', P (.error e) p' g' → Q (.error e) p' g') :
    Ends chars (y >>= f) p g Q := by
  intro record hle hsafe
  obtain ⟨r, c, hr, hc⟩ := hy record hle hsafe
  cases r with
  | error e =>
      exact ⟨_, _, bind_of_error hr, hc.le, hc.safe,
        fun q f h => hc.complaint_le q f (by cases h; rfl), herror _ _ _ hc.post⟩
  | ok b =>
      rw [bind_of_ok hr]
      exact hok b _ _ hc.le hc.post c.record hc.le hc.safe

theorem map {y : Descent β} {f : β → α}
    (hy : Ends chars y p g fun r p' g' => Q (r.map f) p' g') :
    Ends chars (y >>= fun b => Pure.pure (f b)) p g Q :=
  hy.bind (fun _ _ _ _ h => pure h) fun _ _ _ h => h

/-! ## Calls -/

/-- What a procedure owes to its callers. -/
theorem call {procedure : Procedure} (h : Ends chars x p g Q)
    (hforward : ∀ r p' g', Q r p' g' → p ≤ p' ∧
      (procedure = .atom → r.isOk = true → p < chars.length → p < p')) :
    Ends chars (Descent.call procedure x) p g Q := by
  intro record hle hsafe
  obtain ⟨r, c, hx, hc⟩ := h record hle hsafe
  refine ⟨r, { c with record := .returned procedure p c.position r.isOk :: c.record }, ?_, hc.le,
    ?_, hc.complaint_le, hc.post⟩
  · change ((x chars ⟨p, g, record⟩).bind _ : Option _) = _
    rw [hx]
    rfl
  · obtain ⟨hle', hatom⟩ := hforward _ _ _ hc.post
    exact List.forall_mem_cons.2 ⟨⟨hle', hc.le, hatom⟩, hc.safe⟩

/-- A procedure other than an atom only has to end where it began or later. -/
theorem call_of_ne {procedure : Procedure} (hprocedure : procedure ≠ .atom)
    (h : Ends chars x p g Q) (hforward : ∀ r p' g', Q r p' g' → p ≤ p') :
    Ends chars (Descent.call procedure x) p g Q :=
  h.call fun r p' g' hQ => ⟨hforward r p' g' hQ, fun hatom => absurd hatom hprocedure⟩

/-- Goes on behind a procedure whose answer and end are known. -/
theorem call_value {procedure : Procedure} {y : Descent β} {f : β → Descent α} {b : β} {q : Nat}
    (hprocedure : procedure ≠ .atom) (hle : p ≤ q)
    (hy : Ends chars y p g fun r q' g' => r = .ok b ∧ q' = q ∧ g' = g)
    (h : Ends chars (f b) q g Q) : Ends chars (Descent.call procedure y >>= f) p g Q := by
  refine (hy.call_of_ne hprocedure ?_).bind ?_ ?_
  · rintro r p' g' ⟨-, rfl, -⟩
    exact hle
  · rintro b' p' g' - ⟨⟨⟩, rfl, rfl⟩
    exact h
  · rintro e p' g' ⟨⟨⟩, -⟩

/-! ## The cursor -/

theorem position {f : Nat → Descent α} (h : Ends chars (f p) p g Q) :
    Ends chars (Descent.position >>= f) p g Q := h

theorem groups {f : Groups → Descent α} (h : Ends chars (f g) p g Q) :
    Ends chars (Descent.groups >>= f) p g Q := h

theorem read {f : List Char → Descent α} (h : Ends chars (f chars) p g Q) :
    Ends chars (MonadReader.read >>= f) p g Q := h

theorem peek {f : Option Char → Descent α} (hat : At chars p cs)
    (h : Ends chars (f cs.head?) p g Q) : Ends chars (Descent.peek >>= f) p g Q := by
  rw [← hat.getElem?_self] at h
  exact h

theorem peekAt {f : Option Char → Descent α} {n : Nat} (hat : At chars p cs)
    (h : Ends chars (f cs[n]?) p g Q) : Ends chars (Descent.peekAt n >>= f) p g Q := by
  rw [← hat.getElem?] at h
  exact h

theorem lookingAt {f : Bool → Descent α} {text : List Char} (hat : At chars p cs)
    (h : Ends chars (f (text.isPrefixOf cs)) p g Q) :
    Ends chars (Descent.lookingAt text >>= f) p g Q := by
  rw [← hat.drop] at h
  exact h

theorem note {f : Unit → Descent α} {e : Event} (he : e.IsSafe chars.length)
    (h : Ends chars (f ()) p g Q) : Ends chars (Descent.note e >>= f) p g Q :=
  fun record hle hsafe => h (e :: record) hle (List.forall_mem_cons.2 ⟨he, hsafe⟩)

theorem moveTo {f : Unit → Descent α} {q : Nat} (hq : q ≤ chars.length)
    (h : Ends chars (f ()) q g Q) : Ends chars (Descent.moveTo q >>= f) p g Q :=
  fun record _ hsafe => h (.moved q :: record) hq (List.forall_mem_cons.2 ⟨hq, hsafe⟩)

theorem advance {f : Unit → Descent α} {n : Nat} (hle : p + n ≤ chars.length)
    (h : Ends chars (f ()) (p + n) g Q) : Ends chars (Descent.advance n >>= f) p g Q :=
  moveTo hle h

theorem back {f : Unit → Descent α} (h : Ends chars (f ()) p g Q) :
    Ends chars (Descent.back >>= f) (p + 1) g Q := fun record hle hsafe =>
  have hp : p ≤ chars.length := Nat.le_of_succ_le hle
  h (.moved p :: .wentBack (p + 1) :: record) hp
    (List.forall_mem_cons.2 ⟨hp, List.forall_mem_cons.2 ⟨Nat.succ_pos p, hsafe⟩⟩)

theorem slice {f : List Char → Descent α} {start stop : Nat} (hstart : start ≤ stop)
    (hstop : stop ≤ chars.length) (h : Ends chars (f ((chars.take stop).drop start)) p g Q) :
    Ends chars (Descent.slice start stop >>= f) p g Q :=
  fun record hle hsafe =>
    h (.sliced start stop :: record) hle (List.forall_mem_cons.2 ⟨⟨hstart, hstop⟩, hsafe⟩)

theorem bump_nil {f : Option Char → Descent α} (hat : At chars p [])
    (h : Ends chars (f none) p g Q) : Ends chars (Descent.bump >>= f) p g Q :=
  call_value (by decide) (Nat.le_refl p) (peek hat (pure ⟨rfl, rfl, rfl⟩)) h

theorem bump_cons {f : Option Char → Descent α} {c : Char} (hat : At chars p (c :: cs))
    (h : Ends chars (f (some c)) (p + 1) g Q) : Ends chars (Descent.bump >>= f) p g Q :=
  call_value (by decide) (Nat.le_succ p)
    (peek hat (advance hat.le_of_cons (pure ⟨rfl, rfl, rfl⟩))) h

theorem eat_cons {f : Bool → Descent α} {c : Char} (hat : At chars p (c :: cs))
    (h : Ends chars (f true) (p + 1) g Q) : Ends chars (Descent.eat c >>= f) p g Q := by
  refine call_value (by decide) (Nat.le_succ p) (peek hat ?_) h
  rw [List.head?_cons, if_pos rfl]
  exact advance hat.le_of_cons (pure ⟨rfl, rfl, rfl⟩)

theorem eat_ne {f : Bool → Descent α} {c : Char} (hat : At chars p cs) (hc : cs.head? ≠ some c)
    (h : Ends chars (f false) p g Q) : Ends chars (Descent.eat c >>= f) p g Q := by
  refine call_value (by decide) (Nat.le_refl p) (peek hat ?_) h
  rw [if_neg hc]
  exact pure ⟨rfl, rfl, rfl⟩

theorem expect_cons {f : Unit → Descent α} {c : Char} (hat : At chars p (c :: cs))
    (h : Ends chars (f ()) (p + 1) g Q) : Ends chars (Descent.expect c >>= f) p g Q :=
  call_value (by decide) (Nat.le_succ p) (eat_cons hat (pure ⟨rfl, rfl, rfl⟩)) h

theorem expect_ne {f : Unit → Descent α} {c : Char} (hat : At chars p cs)
    (hc : cs.head? ≠ some c) (h : Q (.error (.at p (.expected c))) p g) :
    Ends chars (Descent.expect c >>= f) p g Q := by
  let P : Post Unit := fun r q g' => r = .error (.at p (.expected c)) ∧ q = p ∧ g' = g
  have hcall : Ends chars (Descent.expect c) p g P := by
    refine call_of_ne (by decide) (eat_ne hat hc (complain ⟨rfl, rfl, rfl⟩)) ?_
    rintro r q g' ⟨-, rfl, -⟩
    exact Nat.le_refl q
  refine hcall.bind ?_ ?_
  · rintro b q g' - ⟨⟨⟩, -⟩
  · rintro e q g' ⟨⟨⟩, rfl, rfl⟩
    exact h

theorem openGroup {f : Nat → Descent α} {name : Option String}
    (h : Ends chars (f (g.count + 1)) p
      ⟨g.count + 1, name.elim g.names fun n => (n, g.count + 1) :: g.names⟩ Q) :
    Ends chars (Descent.openGroup name >>= f) p g Q := by
  cases name <;> exact h

/-! ## Loops -/

/-- What holds after a turn of a loop from `p`: the invariant, further on, or what
is to hold after the loop. -/
def Turned (I : σ → Nat → Groups → Prop) (Q : Post α) (p : Nat) : Post (σ ⊕ α)
  | .ok (.inl s), p', g' => p < p' ∧ I s p' g'
  | .ok (.inr a), p', g' => Q (.ok a) p' g'
  | .error e, p', g' => Q (.error e) p' g'

/-- A loop keeps an invariant, and with fuel for one turn more than there are characters left it
ends, as all its turns but the last bring the cursor forward. -/
theorem loop {l : Loop} {turn : σ → Descent (σ ⊕ α)} {I : σ → Nat → Groups → Prop} {fuel : Nat}
    {s : σ} (hturn : ∀ s p g, p ≤ chars.length → I s p g →
      Ends chars (turn s) p g (Turned I Q p))
    (hfuel : chars.length < p + fuel) (hstart : I s p g) :
    Ends chars (Descent.loop l turn fuel s) p g Q := by
  induction fuel generalizing s p g with
  | zero =>
      intro record hle
      omega
  | succ fuel ih =>
      refine .of_le fun hle => ?_
      rw [Descent.loop]
      refine .position ((hturn s p g hle hstart).bind (fun next p' g' hle' hnext => ?_)
        fun e p' g' h => h)
      cases next with
      | inr a => exact pure hnext
      | inl s' =>
          obtain ⟨hforward, hinvariant⟩ := hnext
          exact .position (.note hforward (ih (by omega) hinvariant))

end Ends

end Specimen.Regex.Descent
