import Specimen.Provider.Error
import Specimen.Provider.Locale
import Specimen.Random.Draw
/-!
# Fake data

Data that looks real, by the name of a method: identifiers and addresses of networks,
coordinates, instants, and text made of a small vocabulary. Every call draws one of the
configured locales first. The values stand in for those of a library of fake data; what a
generator does with them holds for any provider.
-/

namespace Specimen.Provider.Fake

/-- A shape of data. -/
inductive Method where
  /-- A degree up to the limit on both sides of zero. -/
  | degree (limit : Float)
  | uuid
  | ipv4
  | ipv6
  | mac
  | date
  | time
  | dateTime
  | isoDateTime
  | word
  | words
  | sentence
  | sentences
  | paragraph
  | paragraphs
  | text
  | password
  | email
  | address

/-- The methods whose shape is a single word. -/
def wordMethods : List String :=
  ["bs", "building_number", "catch_phrase", "cell_phone", "city", "company", "company_suffix",
    "country", "country_code", "domain_suffix", "first_name", "free_email_domain", "industry",
    "job", "last_name", "name", "phone_number", "postcode", "prefix", "secondary_address",
    "state", "state_abbr", "street_name", "street_suffix", "suffix", "timezone", "user_agent",
    "user_name", "word", "zipcode"]

/-- The shape of a method's data. -/
def Method.ofName? (name : String) : Option Method :=
  match name with
  | "latitude" => some (.degree 90.0)
  | "longitude" => some (.degree 180.0)
  | "uuid4" => some .uuid
  | "ipv4" => some .ipv4
  | "ipv6" => some .ipv6
  | "mac_address" => some .mac
  | "date" => some .date
  | "time" => some .time
  | "date_time" => some .dateTime
  | "iso8601" => some .isoDateTime
  | "words" => some .words
  | "sentence" => some .sentence
  | "sentences" => some .sentences
  | "paragraph" => some .paragraph
  | "paragraphs" => some .paragraphs
  | "text" => some .text
  | "password" => some .password
  | "email" | "free_email" | "safe_email" => some .email
  | "address" => some .address
  | name => if wordMethods.contains name then some .word else none

/-- The names of all methods, in ascending order. -/
def methodNames : List String :=
  ["address", "bs", "building_number", "catch_phrase", "cell_phone", "city", "company",
    "company_suffix", "country", "country_code", "date", "date_time", "domain_suffix", "email",
    "first_name", "free_email", "free_email_domain", "industry", "ipv4", "ipv6", "iso8601",
    "job", "last_name", "latitude", "longitude", "mac_address", "name", "paragraph",
    "paragraphs", "password", "phone_number", "postcode", "prefix", "safe_email",
    "secondary_address", "sentence", "sentences", "state", "state_abbr", "street_name",
    "street_suffix", "suffix", "text", "time", "timezone", "user_agent", "user_name",
    "uuid4", "word", "words", "zipcode"]

/-! ## Text -/

def vocabulary : List String :=
  ["lorem", "ipsum", "dolor", "sit", "amet", "consectetur", "adipiscing", "elit", "sed",
    "eiusmod", "tempor", "incididunt", "labore", "dolore", "magna", "aliqua"]

def drawWord : Draw String := do pure ((← Draw.pick vocabulary).getD "lorem")

/-- So many draws, one after the other. -/
def times {α : Type} (d : Draw α) : Nat → Draw (List α)
  | 0 => pure []
  | n + 1 => do
    let a ← d
    pure (a :: (← times d n))

def drawSentence (words : Nat) : Draw String := do
  pure (" ".intercalate (← times drawWord words) ++ ".")

/-- A paragraph has a sentence of some words on each line. -/
def drawParagraph (lines : Nat) : Draw String := do
  pure ("\n".intercalate (← times (drawSentence 8) lines))

def passwordChar : Draw Char := do
  pure (Char.ofNat ('a'.toNat + (← Draw.below32 26)))

/-! ## Identifiers -/

def hexDigit (upper : Bool) (n : Nat) : Char :=
  if n < 10 then Char.ofNat ('0'.toNat + n)
  else Char.ofNat ((if upper then 'A' else 'a').toNat + (n - 10))

def hexByte (upper : Bool) (b : UInt8) : String :=
  String.ofList [hexDigit upper (b.toNat / 16), hexDigit upper (b.toNat % 16)]

/-- Sixteen random bytes with the marks of version four, in groups of hexadecimal digits. -/
def uuidText (bytes : List UInt8) : String :=
  let marked := bytes.zipIdx.map fun (b, i) =>
    if i = 6 then (b &&& 0x0F) ||| 0x40 else if i = 8 then (b &&& 0x3F) ||| 0x80 else b
  let group (start count : Nat) : String :=
    String.join (((marked.drop start).take count).map (hexByte false))
  "-".intercalate [group 0 4, group 4 2, group 6 2, group 8 2, group 10 6]

def lowByte : Draw UInt8 := do pure (← Draw.word).toUInt8

def upperHex (n : Nat) : String := (String.ofList (Nat.toDigits 16 n)).toUpper

/-- A number of degrees rounded to six places, a half away from zero. -/
def drawDegree (limit : Float) : Draw Float := do
  let x ← Draw.floatBetween (-limit) limit
  pure ((x * 1e6).round / 1e6)

/-! ## Instants -/

/-- Year, month and day of a number of days since the beginning of 1970. -/
def civilDate (days : Nat) : Nat × Nat × Nat :=
  let z := days + 719468
  let era := z / 146097
  let dayOfEra := z % 146097
  let yearOfEra :=
    (dayOfEra - dayOfEra / 1460 + dayOfEra / 36524 - dayOfEra / 146096) / 365
  let dayOfYear := dayOfEra - (365 * yearOfEra + yearOfEra / 4 - yearOfEra / 100)
  let m := (5 * dayOfYear + 2) / 153
  let day := dayOfYear - (153 * m + 2) / 5 + 1
  let month := if m < 10 then m + 3 else m - 9
  (yearOfEra + era * 400 + (if month ≤ 2 then 1 else 0), month, day)

def padded (width n : Nat) : String :=
  let ds := Nat.toDigits 10 n
  String.ofList (List.replicate (width - ds.length) '0' ++ ds)

def dateText (seconds : Nat) : String :=
  let (y, m, d) := civilDate (seconds / 86400)
  "-".intercalate [padded 4 y, padded 2 m, padded 2 d]

def timeText (seconds : Nat) : String :=
  let s := seconds % 86400
  ":".intercalate [padded 2 (s / 3600), padded 2 (s / 60 % 60), padded 2 (s % 60)]

/-- The seconds since the beginning of 1970 that no instant reaches. -/
def latest : Nat := 1767225600

/-- Seconds since the beginning of 1970. -/
def instant : Draw Nat := Draw.below64 latest

/-! ## Calls -/

def list (d : Draw String) (n : Nat) : Draw Json := do pure (.arr ((← times d n).map .str))

/-- The data of a method, if its arguments are good. -/
def Method.draw (m : Method) (args : List Json) : Except ArgumentFault (Draw Json) :=
  let text (d : Draw String) : Except ArgumentFault (Draw Json) := .ok do pure (.str (← d))
  match m with
  | .degree limit => .ok do pure (Json.ofFloat (← drawDegree limit))
  | .uuid => text do pure (uuidText (← Draw.bytes 4))
  | .ipv4 => text do pure (".".intercalate ((← times lowByte 4).map fun b => toString b.toNat))
  | .ipv6 => text do
    pure (":".intercalate ((← times Draw.word 8).map fun w => upperHex (w.toNat % 65536)))
  | .mac => text do pure (":".intercalate ((← times lowByte 6).map (hexByte true)))
  | .date => text do pure (dateText (← instant))
  | .time => text do pure (timeText (← instant))
  | .dateTime => text do
    let t ← instant
    pure (dateText t ++ " " ++ timeText t)
  | .isoDateTime => text do
    let t ← instant
    pure (dateText t ++ "T" ++ timeText t)
  | .word => text drawWord
  | .words => do .ok (list drawWord (← count args 3))
  | .sentence => do text (drawSentence (max 1 (← count args 6)))
  | .sentences => do .ok (list (drawSentence 6) (← count args 3))
  | .paragraph => do text (drawParagraph (max 1 (← count args 3)))
  | .paragraphs => do .ok (list (drawParagraph 3) (← count args 3))
  | .text => do
    let limit ← count args 200
    text do pure (String.ofList ((← drawParagraph 4).toList.take limit))
  | .password => do
    let n ← count args 10
    text do pure (String.ofList (← times passwordChar n))
  | .email => text do pure ((← drawWord) ++ "@" ++ (← drawWord) ++ ".com")
  | .address => text do
    pure ((← drawWord) ++ " street, " ++ (← drawWord) ++ ", " ++ (← drawWord))

/-- Draws the data of a method in one of some locales. -/
def call (locales : List Locale) (method : String) (args : List Json) :
    Draw (Except Error Json) := do
  let _ ← Draw.pick locales
  match Method.ofName? method with
  | none => pure (.error (.unknownMethod method))
  | some m =>
    match m.draw args with
    | .error f => pure (.error (.invalidArguments method f))
    | .ok d => pure (.ok (← d))

/-- The locales of some names; there must be one, and each must be known. -/
def locales (names : List String) : Except Error (List Locale) := do
  let ls ← names.mapM fun n =>
    match Locale.ofName? n with
    | some l => .ok l
    | none => .error (Error.unavailable s!"unsupported fake-data locale '{n}'")
  if ls.isEmpty then .error (.unavailable "no fake-data locales configured") else .ok ls

end Specimen.Provider.Fake
