import Mathlib.Data.List.Nodup
import Specimen.Params
import Specimen.Proofs.Except
import Specimen.Proofs.Table
/-!
# What parameters give to the declared names

Whatever shape parameters have, `given?` says which value they give to a name. It is all that a
binding depends on: it succeeds just if the shape suits the declarations, every value that is not
null fits the kind of its name, and no required name is left without one; and then the bound
values are the given ones. So a list and the object of the same values bind alike.
-/

namespace Specimen.Params

/-- The values that parameters give to some names: by place, by name, or one to the first. -/
def offered (params : Option Json) (keys : List String) : List (String × Json) :=
  match params with
  | none | some .null => []
  | some (.arr items) => keys.zip items
  | some (.obj fields) => fields
  | some v => keys.zip [v]

/-- The value that parameters give to one of some names. -/
def given? (params : Option Json) (keys : List String) (key : String) : Option Json :=
  (offered params keys).lookup key

/-- A value that can be bound to a declaration, or is not bound as it is null. -/
def Fits (d : Decl) (v : Json) : Prop := v.isNull ∨ d.kind.admits v

/-- No two fields of an object have one name. -/
def HasDistinctNames (params : Option Json) : Prop :=
  ∀ fields, params = some (.obj fields) → (fields.map (·.1)).Nodup

namespace Bound

/-- Whether the getter for the kind of a declaration has a value. -/
def reads (b : Bound) (d : Decl) : Bool :=
  match d.kind with
  | .any => (b.get? d.key).isSome
  | .int => (b.int? d.key).isSome
  | .float => (b.float? d.key).isSome
  | .string => (b.str? d.key).isSome

/-- Nobody who reads values by name can tell two bindings apart. -/
structure Alike (b c : Bound) : Prop where
  get? : ∀ key, b.get? key = c.get? key
  int? : ∀ key, b.int? key = c.int? key
  float? : ∀ key, b.float? key = c.float? key
  str? : ∀ key, b.str? key = c.str? key

/-- Binds values to declarations one after the other. -/
def insertAll : Bound → List (Decl × Json) → Except Error Bound
  | b, [] => .ok b
  | b, (d, v) :: rest => do insertAll (← b.insert d v) rest

variable {b c : Bound} {d : Decl} {v : Json}

theorem Alike.of_get? (h : ∀ key, b.get? key = c.get? key) : b.Alike c where
  get? := h
  int? key := congrArg (·.bind integer?) (h key)
  float? key := congrArg (·.bind Json.float?) (h key)
  str? key := congrArg (·.bind Json.str?) (h key)

/-- A value that fits its kind can be read. -/
theorem reads_eq (h : ∀ v, b.get? d.key = some v → d.kind.admits v) :
    b.reads d = (b.get? d.key).isSome := by
  unfold reads int? float? str?
  cases hv : b.get? d.key with
  | none => cases d.kind <;> rfl
  | some v =>
      have hadmits := h v hv
      cases hkind : d.kind <;> rw [hkind] at hadmits <;> exact hadmits

theorem insert_eq_ok :
    b.insert d v = .ok c ↔
      Fits d v ∧ c = ⟨b.values ++ if v.isNull then [] else [(d.key, v)]⟩ := by
  unfold insert Fits
  cases hnull : v.isNull with
  | true => simpa using eq_comm
  | false =>
      cases hadmits : d.kind.admits v with
      | true => simpa using eq_comm
      | false => simp

theorem insertAll_cons_eq_ok {pairs : List (Decl × Json)} :
    b.insertAll ((d, v) :: pairs) = .ok c ↔
      ∃ b', b.insert d v = .ok b' ∧ b'.insertAll pairs = .ok c := by
  rw [insertAll, bind_eq_ok]

/-- What is bound in the end: the values by the keys of their declarations, without null. -/
theorem insertAll_eq_ok {pairs : List (Decl × Json)} :
    b.insertAll pairs = .ok c ↔ (∀ p ∈ pairs, Fits p.1 p.2) ∧
      c = ⟨b.values ++ (pairs.map fun p => (p.1.key, p.2)).filter (!·.2.isNull)⟩ := by
  induction pairs generalizing b with
  | nil => simpa [insertAll] using eq_comm
  | cons p pairs ih =>
      obtain ⟨d, v⟩ := p
      simp only [insertAll_cons_eq_ok, insert_eq_ok, ih, List.forall_mem_cons, List.map_cons,
        List.filter_cons]
      constructor
      · rintro ⟨b', ⟨hfits, rfl⟩, hall, rfl⟩
        refine ⟨⟨hfits, hall⟩, ?_⟩
        cases v.isNull <;> simp
      · rintro ⟨⟨hfits, hall⟩, rfl⟩
        refine ⟨_, ⟨hfits, rfl⟩, hall, ?_⟩
        cases v.isNull <;> simp

end Bound

/-- The declarations with the values that parameters assign to them, if the shape of the
parameters suits the declarations. -/
def assigned? (params : Option Json) (decls : List Decl) : Option (List (Decl × Json)) :=
  match params with
  | none | some .null => some []
  | some (.arr items) => if decls.length < items.length then none else some (decls.zip items)
  | some (.obj fields) => fields.mapM fun (key, v) => (decls.find? (·.key = key)).map (·, v)
  | some v => decls.head?.map fun d => [(d, v)]

/-- What parameters of this shape may give suits the declarations: there are not too many values,
and no name that is not declared. -/
def Suits (params : Option Json) (decls : List Decl) : Prop :=
  match params with
  | none | some .null => True
  | some (.arr items) => items.length ≤ decls.length
  | some (.obj fields) => ∀ key ∈ fields.map (·.1), key ∈ decls.map (·.key)
  | some _ => decls ≠ []

variable {params : Option Json} {decls : List Decl} {b c : Bound}

/-! ## Binding is inserting what is assigned -/

theorem bindList_eq (b : Bound) (decls : List Decl) (values : List Json) :
    bindList b decls values = b.insertAll (decls.zip values) := by
  induction decls generalizing b values with
  | nil => rfl
  | cons d decls ih =>
      cases values with
      | nil => rfl
      | cons v values =>
          simp only [bindList, ih, List.zip_cons_cons, Bound.insertAll]

theorem assigned?_cons_eq_some {key : String} {v : Json} {fields : List (String × Json)}
    {pairs : List (Decl × Json)} :
    assigned? (some (.obj ((key, v) :: fields))) decls = some pairs ↔
      ∃ d rest, decls.find? (·.key = key) = some d ∧
        assigned? (some (.obj fields)) decls = some rest ∧ (d, v) :: rest = pairs := by
  cases hd : decls.find? (·.key = key) <;> simp [assigned?, hd, Option.bind_eq_some_iff]

theorem bindFields_eq_ok {fields : List (String × Json)} :
    bindFields decls b fields = .ok c ↔ ∃ pairs,
      assigned? (some (.obj fields)) decls = some pairs ∧ b.insertAll pairs = .ok c := by
  induction fields generalizing b with
  | nil => simp [bindFields, assigned?, Bound.insertAll]
  | cons field fields ih =>
      obtain ⟨key, v⟩ := field
      simp only [assigned?_cons_eq_some]
      cases hd : decls.find? (·.key = key) with
      | none => simp [bindFields, hd]
      | some d =>
          simp only [bindFields, hd, bind_eq_ok, ih]
          constructor
          · rintro ⟨b', hb', rest, hrest, hall⟩
            exact ⟨_, ⟨d, rest, rfl, hrest, rfl⟩, Bound.insertAll_cons_eq_ok.2 ⟨b', hb', hall⟩⟩
          · rintro ⟨_, ⟨_, rest, hd', hrest, rfl⟩, hall⟩
            obtain rfl := Option.some.inj hd'
            obtain ⟨b', hb', hall⟩ := Bound.insertAll_cons_eq_ok.1 hall
            exact ⟨b', hb', rest, hrest, hall⟩

theorem bindValue_eq_ok :
    bindValue params decls = .ok b ↔ ∃ pairs,
      assigned? params decls = some pairs ∧ Bound.insertAll {} pairs = .ok b := by
  match params with
  | none | some .null => simp [bindValue, assigned?, Bound.insertAll]
  | some (.arr items) =>
      by_cases hmany : decls.length < items.length
      · simp [bindValue, assigned?, hmany]
      · simp [bindValue, assigned?, hmany, bindList_eq]
  | some (.obj fields) => exact bindFields_eq_ok
  | some (.bool _) | some (.int _) | some (.float _) | some (.str _) =>
      cases decls with
      | nil => simp [bindValue, assigned?]
      | cons d decls => simp [bindValue, assigned?, Bound.insertAll, bind_eq_ok]

/-! ## What is assigned is what is offered -/

/-- An object assigns its values to declarations if they declare all its names. -/
theorem assigned?_fields {fields : List (String × Json)} :
    (∃ pairs, assigned? (some (.obj fields)) decls = some pairs) ↔
      ∀ key ∈ fields.map (·.1), key ∈ decls.map (·.key) := by
  induction fields with
  | nil => simp [assigned?]
  | cons field fields ih =>
      obtain ⟨key, v⟩ := field
      rw [List.map_cons, List.forall_mem_cons, ← ih]
      simp only [assigned?_cons_eq_some]
      constructor
      · rintro ⟨_, d, rest, hd, hrest, -⟩
        exact ⟨List.mem_map.2
            ⟨d, List.mem_of_find?_eq_some hd, by simpa using List.find?_some hd⟩,
          rest, hrest⟩
      · rintro ⟨hkey, rest, hrest⟩
        obtain ⟨d, hd⟩ : ∃ d, decls.find? (·.key = key) = some d := by
          obtain ⟨d, hmem, hd⟩ := List.mem_map.1 hkey
          exact Option.isSome_iff_exists.1 (List.find?_isSome.2 ⟨d, hmem, decide_eq_true hd⟩)
        exact ⟨_, d, rest, hd, hrest, rfl⟩

theorem exists_assigned?_iff :
    (∃ pairs, assigned? params decls = some pairs) ↔ Suits params decls := by
  match params with
  | none | some .null => simp [assigned?, Suits]
  | some (.arr items) => by_cases hmany : decls.length < items.length <;> simp [assigned?, Suits]
  | some (.obj fields) => exact assigned?_fields
  | some (.bool _) | some (.int _) | some (.float _) | some (.str _) =>
      cases decls <;> simp [assigned?, Suits]

/-- Values are assigned to declarations, by the names they are given to. -/
theorem assigned?_eq_some {pairs : List (Decl × Json)}
    (h : assigned? params decls = some pairs) :
    pairs.map (fun p => (p.1.key, p.2)) = offered params (decls.map (·.key)) ∧
      ∀ p ∈ pairs, p.1 ∈ decls := by
  match params with
  | none | some .null => cases h; exact ⟨rfl, fun _ hp => nomatch hp⟩
  | some (.arr items) =>
      by_cases hmany : decls.length < items.length
      · simp [assigned?, hmany] at h
      · obtain rfl : decls.zip items = pairs := by simpa [assigned?, hmany] using h
        refine ⟨?_, fun p hp => (List.of_mem_zip hp).1⟩
        rw [offered, List.zip_map_left]
        rfl
  | some (.obj fields) =>
      induction fields generalizing pairs with
      | nil => cases h; exact ⟨rfl, fun _ hp => nomatch hp⟩
      | cons field fields ih =>
          obtain ⟨d, rest, hd, hrest, rfl⟩ := assigned?_cons_eq_some.1 h
          obtain ⟨hnames, hmem⟩ := ih hrest
          have hkey : d.key = field.1 := by simpa using List.find?_some hd
          refine ⟨?_, List.forall_mem_cons.2 ⟨List.mem_of_find?_eq_some hd, hmem⟩⟩
          rw [List.map_cons, hnames, hkey]
          rfl
  | some (.bool _) | some (.int _) | some (.float _) | some (.str _) =>
      cases decls with
      | nil => cases h
      | cons d decls => cases h; simp [offered]

theorem bind_eq_ok_iff : bind params decls = .ok b ↔ bindValue params decls = .ok b ∧
    ∀ d ∈ decls, d.required → (b.get? d.key).isSome := by
  unfold bind
  rw [Specimen.bind_eq_ok]
  have hmissing : ∀ c : Bound, (∀ d ∈ decls, d.required → (c.get? d.key).isSome) ↔
      decls.find? (fun d => d.required && (c.get? d.key).isNone) = none := fun c => by
    simp [List.find?_eq_none, Option.isSome_iff_ne_none]
  constructor
  · rintro ⟨c, hc, h⟩
    split at h
    · cases h
    · rename_i hnone
      cases h
      exact ⟨hc, (hmissing b).2 hnone⟩
  · rintro ⟨hb, hrequired⟩
    exact ⟨b, hb, by rw [(hmissing b).1 hrequired]⟩

/-! ## What is bound is what is offered and not null -/

section

variable (hkeys : (decls.map (·.key)).Nodup) (hnames : HasDistinctNames params)
include hkeys hnames

theorem nodup_offered : ((offered params (decls.map (·.key))).map (·.1)).Nodup := by
  have hzip : ∀ values : List Json,
      (((decls.map (·.key)).zip values).map Prod.fst).Nodup := fun values => by
    rw [List.zip_eq_zip_take_min, List.map_fst_zip (by simp)]
    exact hkeys.sublist (List.take_sublist _ _)
  match params with
  | none | some .null => exact List.nodup_nil
  | some (.arr items) => exact hzip items
  | some (.obj fields) => exact hnames fields rfl
  | some (.bool _) | some (.int _) | some (.float _) | some (.str _) => exact hzip _

/-- The pairs that are assigned are the declarations with what is given to them. -/
theorem mem_assigned? {pairs : List (Decl × Json)} (h : assigned? params decls = some pairs)
    {d : Decl} {v : Json} :
    (d, v) ∈ pairs ↔ d ∈ decls ∧ given? params (decls.map (·.key)) d.key = some v := by
  obtain ⟨hoffered, hmem⟩ := assigned?_eq_some h
  rw [given?, Table.lookup_eq_some_iff_mem (nodup_offered hkeys hnames), ← hoffered]
  constructor
  · exact fun hp => ⟨hmem _ hp, List.mem_map.2 ⟨_, hp, rfl⟩⟩
  · rintro ⟨hd, hv⟩
    obtain ⟨⟨d', v'⟩, hp, heq⟩ := List.mem_map.1 hv
    obtain ⟨hkey, rfl⟩ := Prod.mk.inj heq
    obtain rfl : d' = d := List.inj_on_of_nodup_map hkeys (hmem _ hp) hd hkey
    exact hp

theorem bindValue_eq_ok_iff : bindValue params decls = .ok b ↔ Suits params decls ∧
    (∀ d ∈ decls, ∀ v, given? params (decls.map (·.key)) d.key = some v → Fits d v) ∧
      b = ⟨(offered params (decls.map (·.key))).filter (!·.2.isNull)⟩ := by
  have hpairs : ∀ pairs, assigned? params decls = some pairs →
      ((∀ p ∈ pairs, Fits p.1 p.2) ↔
        ∀ d ∈ decls, ∀ v, given? params (decls.map (·.key)) d.key = some v → Fits d v) :=
    fun pairs h =>
      ⟨fun hfits d hd v hv => hfits (d, v) ((mem_assigned? hkeys hnames h).2 ⟨hd, hv⟩),
      fun hfits p hp => have ⟨hd, hv⟩ := (mem_assigned? hkeys hnames h).1 hp; hfits _ hd _ hv⟩
  simp only [bindValue_eq_ok, Bound.insertAll_eq_ok, List.nil_append, ← exists_assigned?_iff]
  constructor
  · rintro ⟨pairs, h, hfits, rfl⟩
    exact ⟨⟨pairs, h⟩, (hpairs pairs h).1 hfits, by rw [(assigned?_eq_some h).1]⟩
  · rintro ⟨⟨pairs, h⟩, hfits, rfl⟩
    exact ⟨pairs, h, (hpairs pairs h).2 hfits, by rw [(assigned?_eq_some h).1]⟩

/-- Whoever reads a bound value by its name gets what is given to the name, but null. -/
theorem get?_of_bindValue (h : bindValue params decls = .ok b) (key : String) :
    b.get? key = (given? params (decls.map (·.key)) key).filter (!·.isNull) := by
  obtain ⟨-, -, rfl⟩ := (bindValue_eq_ok_iff hkeys hnames).1 h
  exact Table.lookup_filter (nodup_offered hkeys hnames) (!·.isNull) key

/-- A binding succeeds just if the shape of the parameters suits the declarations, what is given
to a declaration fits it, and every required one is given a value other than null. -/
theorem exists_bind_iff : (∃ b, bind params decls = .ok b) ↔ Suits params decls ∧
    (∀ d ∈ decls, ∀ v, given? params (decls.map (·.key)) d.key = some v → Fits d v) ∧
      ∀ d ∈ decls, d.required →
        ((given? params (decls.map (·.key)) d.key).filter (!·.isNull)).isSome := by
  constructor
  · rintro ⟨b, hb⟩
    obtain ⟨hvalue, hrequired⟩ := bind_eq_ok_iff.1 hb
    obtain ⟨hsuits, hfits, -⟩ := (bindValue_eq_ok_iff hkeys hnames).1 hvalue
    exact ⟨hsuits, hfits, fun d hd hreq =>
      get?_of_bindValue hkeys hnames hvalue d.key ▸ hrequired d hd hreq⟩
  · rintro ⟨hsuits, hfits, hrequired⟩
    have hvalue := (bindValue_eq_ok_iff hkeys hnames).2 ⟨hsuits, hfits, rfl⟩
    exact ⟨_, bind_eq_ok_iff.2 ⟨hvalue, fun d hd hreq =>
      (get?_of_bindValue hkeys hnames hvalue d.key).symm ▸ hrequired d hd hreq⟩⟩

/-- The getter for the kind of a declaration has a value just where one
is given, other than null. -/
theorem reads_of_bind (h : bind params decls = .ok b) {d : Decl} (hd : d ∈ decls) :
    b.reads d = ((given? params (decls.map (·.key)) d.key).filter (!·.isNull)).isSome := by
  have hvalue := (bind_eq_ok_iff.1 h).1
  have hfits := ((bindValue_eq_ok_iff hkeys hnames).1 hvalue).2.1 d hd
  rw [← get?_of_bindValue hkeys hnames hvalue]
  refine Bound.reads_eq fun v hv => ?_
  rw [get?_of_bindValue hkeys hnames hvalue, Option.filter_eq_some_iff] at hv
  obtain ⟨hgiven, hnull⟩ := hv
  exact (hfits v hgiven).resolve_left (by simpa using hnull)

end

/-! ## The shapes of parameters -/

/-- Two attempts to bind both fail, or they bind alike. -/
def Agree : Except Error Bound → Except Error Bound → Prop
  | .ok b, .ok c => b.Alike c
  | .error _, .error _ => True
  | _, _ => False

/-- The names of the object that a list of pairs makes are distinct. -/
theorem hasDistinctNames_ofFields {fields : List (String × Json)}
    (h : (fields.map (·.1)).Nodup) : HasDistinctNames (some (Json.ofFields fields)) := by
  rintro _ heq
  cases heq
  exact ((Table.perm_ofList h).map _).nodup_iff.2 h

theorem agree_of_given? {others : Option Json} (hkeys : (decls.map (·.key)).Nodup)
    (hnames : HasDistinctNames params) (hothers : HasDistinctNames others)
    (hsuits : Suits params decls ↔ Suits others decls)
    (hgiven : ∀ key,
      given? params (decls.map (·.key)) key = given? others (decls.map (·.key)) key) :
    Agree (bind params decls) (bind others decls) := by
  have hiff : (∃ b, bind params decls = .ok b) ↔ ∃ c, bind others decls = .ok c := by
    simp only [exists_bind_iff hkeys hnames, exists_bind_iff hkeys hothers, hsuits, hgiven]
  cases hb : bind params decls with
  | error e =>
      cases hc : bind others decls with
      | error e' => trivial
      | ok c =>
          obtain ⟨b, hb'⟩ := hiff.2 ⟨c, hc⟩
          exact nomatch hb.symm.trans hb'
  | ok b =>
      obtain ⟨c, hc⟩ := hiff.1 ⟨b, hb⟩
      rw [hc]
      exact .of_get? fun key => by
        rw [get?_of_bindValue hkeys hnames (bind_eq_ok_iff.1 hb).1, hgiven,
          get?_of_bindValue hkeys hothers (bind_eq_ok_iff.1 hc).1]

theorem hasDistinctNames_arr (items : List Json) : HasDistinctNames (some (.arr items)) :=
  fun _ h => nomatch h

theorem bind_single {v : Json} (hnull : v.isNull = false) (harr : v.arr? = none)
    (hobj : v.obj? = none) (hdecls : decls ≠ []) :
    bind (some v) decls = bind (some (.arr [v])) decls := by
  obtain ⟨d, decls, rfl⟩ := List.exists_cons_of_ne_nil hdecls
  have hlist : bindValue (some (.arr [v])) (d :: decls) = Bound.insert {} d v := by
    have hshort : ¬ (d :: decls).length < [v].length := by simp
    simp only [bindValue, if_neg hshort, bindList_eq, List.zip_cons_cons, List.zip_nil_right]
    cases hv : Bound.insert {} d v <;> simp [Bound.insertAll, hv] <;> rfl
  unfold bind
  rw [hlist]
  match v with
  | .null => nomatch hnull
  | .arr _ => nomatch harr
  | .obj _ => nomatch hobj
  | .bool _ | .int _ | .float _ | .str _ => rfl

/-- What some declarations make of the shapes that parameters may have. -/
structure Interchangeable (decls : List Decl) : Prop where
  /-- A list binds like the object that gives its values by name. -/
  named : ∀ values : List Json, values.length ≤ decls.length →
    Agree (bind (some (.arr values)) decls)
      (bind (some (Json.ofFields ((decls.map (·.key)).zip values))) decls)
  /-- A single value binds like the list that has only this value. -/
  single : ∀ v : Json, v.isNull = false → v.arr? = none → v.obj? = none → decls ≠ [] →
    bind (some v) decls = bind (some (.arr [v])) decls
  /-- The getter for the kind of a declaration has no value just where none is given or null,
  which is never so for a required one. -/
  getter : ∀ params b, HasDistinctNames params → bind params decls = .ok b → ∀ d ∈ decls,
    (b.reads d = false ↔ ∀ v, given? params (decls.map (·.key)) d.key = some v → v.isNull) ∧
      (d.required → b.reads d)
  /-- A value that is not of the kind of its declaration is refused. -/
  unfit : ∀ params, HasDistinctNames params → ∀ d ∈ decls, ∀ v,
    given? params (decls.map (·.key)) d.key = some v → v.isNull = false →
      d.kind.admits v = false → ∃ e, bind params decls = .error e

theorem given?_named (hkeys : (decls.map (·.key)).Nodup) (values : List Json) (key : String) :
    given? (some (.arr values)) (decls.map (·.key)) key =
      given? (some (Json.ofFields ((decls.map (·.key)).zip values)))
      (decls.map (·.key)) key := by
  have hnodup := nodup_offered hkeys (hasDistinctNames_arr values)
  exact (Table.lookup_eq_of_perm (Table.perm_ofList hnodup) hnodup key).symm

theorem suits_named {values : List Json} (h : values.length ≤ decls.length) :
    Suits (some (.arr values)) decls ↔
      Suits (some (Json.ofFields ((decls.map (·.key)).zip values))) decls := by
  refine iff_of_true h fun key hkey => ?_
  obtain ⟨entry, hentry, rfl⟩ := List.mem_map.1 hkey
  exact (List.of_mem_zip (Table.mem_of_mem_ofList hentry)).1

theorem interchangeable_of_nodup (hkeys : (decls.map (·.key)).Nodup) :
    Interchangeable decls where
  named values h :=
    agree_of_given? hkeys (hasDistinctNames_arr values)
      (hasDistinctNames_ofFields (nodup_offered hkeys (hasDistinctNames_arr values)))
      (suits_named h) (given?_named hkeys values)
  single _ := bind_single
  getter params b hnames h d hd := by
    rw [reads_of_bind hkeys hnames h hd]
    refine ⟨?_, ((exists_bind_iff hkeys hnames).1 ⟨b, h⟩).2.2 d hd⟩
    rw [Option.isSome_eq_false_iff, Option.isNone_iff_eq_none, Option.filter_eq_none_iff]
    simp
  unfit params hnames d hd v hv hnull hadmits := by
    cases hb : bind params decls with
    | error e => exact ⟨e, rfl⟩
    | ok b =>
        obtain h | h := ((exists_bind_iff hkeys hnames).1 ⟨b, hb⟩).2.1 d hd v hv
        · exact nomatch hnull.symm.trans h
        · exact nomatch hadmits.symm.trans h

theorem variadic_ofFields (items : List Json) (key : String) :
    variadic (some (Json.ofFields [(key, .arr items)])) key = .ok items := by
  simp [variadic, Json.ofFields, Table.get?_ofList]

theorem call_ofFields (name : Json) (args : List Json) {nameKey argsKey : String}
    (h : nameKey ≠ argsKey) :
    call (some (Json.ofFields [(nameKey, name), (argsKey, .arr args)])) nameKey argsKey =
      call (some (.arr (name :: args))) nameKey argsKey := by
  have hname : Table.get? (Table.ofList [(nameKey, name), (argsKey, .arr args)]) nameKey =
      some name := by
    simp [Table.get?_ofList, List.lookup_cons, beq_eq_false_iff_ne.2 h]
  have hargs : Table.get? (Table.ofList [(nameKey, name), (argsKey, .arr args)]) argsKey =
      some (.arr args) := by simp [Table.get?_ofList]
  unfold call Json.ofFields
  simp only [hname, hargs, callArguments]
  cases name <;> rfl

/-- The shapes of parameters can be exchanged for declarations with distinct keys, and so can
those of bare lists and of calls. -/
theorem shapes_interchangeable (hkeys : (decls.map (·.key)).Nodup) {nameKey argsKey : String}
    (hne : nameKey ≠ argsKey) :
    Interchangeable decls ∧
      (∀ items key, variadic (some (.arr items)) key =
        variadic (some (Json.ofFields [(key, .arr items)])) key) ∧
      ∀ name args, call (some (.arr (name :: args))) nameKey argsKey =
        call (some (Json.ofFields [(nameKey, name), (argsKey, .arr args)])) nameKey argsKey :=
  ⟨interchangeable_of_nodup hkeys, fun items key => (variadic_ofFields items key).symm,
    fun name args => (call_ofFields name args hne).symm⟩

/-- An integer that is required, and a text that is not. -/
def lengthDecls : List Decl := [⟨"length", .int, true⟩, ⟨"alphabet", .string, false⟩]

/-- The parameters of `lengthDecls` bind, the one that is required is read, and a
text in its place is refused. -/
theorem shapes_interchangeable_lengthDecls :
    (∃ b, bind (some (.arr [.int 3])) lengthDecls = .ok b ∧ b.int? "length" = some 3 ∧
      b.reads ⟨"alphabet", .string, false⟩ = false) ∧
      Agree (bind (some (.arr [.int 3])) lengthDecls)
        (bind (some (Json.ofFields [("length", .int 3)])) lengthDecls) ∧
      bind (some (.int 3)) lengthDecls = bind (some (.arr [.int 3])) lengthDecls ∧
      (∃ e, bind (some (.arr [.str "3"])) lengthDecls = .error e) ∧
      call (some (.arr [.str "pick", .int 3])) "name" "args" =
        call (some (Json.ofFields [("name", .str "pick"), ("args", .arr [.int 3])])) "name"
          "args" := by
  have hdecls : (lengthDecls.map (·.key)).Nodup := by decide
  have hall := shapes_interchangeable hdecls (show "name" ≠ "args" by decide)
  refine ⟨⟨⟨[("length", .int 3)]⟩, by rfl, by rfl, by rfl⟩, hall.1.named [.int 3] (by decide),
    hall.1.single (.int 3) rfl rfl rfl (by decide), ?_, hall.2.2 (.str "pick") [.int 3]⟩
  exact hall.1.unfit _ (hasDistinctNames_arr _) ⟨"length", .int, true⟩ (by simp [lengthDecls])
    (.str "3") rfl rfl rfl

end Specimen.Params
