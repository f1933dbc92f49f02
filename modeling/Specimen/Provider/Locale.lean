import Specimen.Text.Blank
/-!
# Locales

The locales that fake data comes from. A name is read without regard to case, to the blanks
around it, and to whether a hyphen or an underscore parts it.
-/

namespace Specimen.Provider

inductive Locale where
  | enUS
  | frFR
  | ptBR
  | deDE
  | jaJP
  | zhCN
  | zhTW
  deriving DecidableEq, Repr

namespace Locale

/-- The locale of a name. -/
def ofName? (name : String) : Option Locale :=
  let plain := (Text.trim name).map fun c => if c = '-' then '_' else c.toLower
  match plain with
  | "en" | "en_us" => some enUS
  | "fr" | "fr_fr" => some frFR
  | "pt_br" => some ptBR
  | "de" | "de_de" => some deDE
  | "ja" | "ja_jp" => some jaJP
  | "zh_cn" => some zhCN
  | "zh_tw" => some zhTW
  | _ => none

def name : Locale → String
  | enUS => "en_US"
  | frFR => "fr_FR"
  | ptBR => "pt_BR"
  | deDE => "de_DE"
  | jaJP => "ja_JP"
  | zhCN => "zh_CN"
  | zhTW => "zh_TW"

end Locale

end Specimen.Provider
