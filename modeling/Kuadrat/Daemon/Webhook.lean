import Kuadrat.Codec.Curl
import Kuadrat.Text

/-!
# The outbound webhook

The URL and the body of a message reach curl in a configuration document. Whatever they
contain, curl reads three options there, and the two values as they were given, but for
control characters that it has no escape for.
-/
namespace Kuadrat
open Curl

/-- The vertical tab, which curl writes `\v`. -/
def verticalTab : Char := Char.ofNat 0x0b

def escapeConfigChar (c : Char) : Text :=
  if c = '\\' then ['\\','\\']
  else if c = '"' then ['\\','"']
  else if c = '\t' then ['\\','t']
  else if c = '\n' then ['\\','n']
  else if c = '\r' then ['\\','r']
  else if c = verticalTab then ['\\','v']
  else if c.toNat < 0x20 ∨ c.toNat = 0x7f then [' ']
  else [c]

/-- Escape a value for a `curl --config` document. -/
def escapeConfigValue (value : Text) : Text := value.flatMap escapeConfigChar

/-- A `curl --config` document that carries the URL and the JSON body. -/
def curlConfig (url body : Text) : Text :=
  "url = \"" ++ escapeConfigValue url ++ "\"\nheader = \"Content-Type: application/json\"\n" ++
    "data-raw = \"" ++ escapeConfigValue body ++ "\"\n"

/-- What curl gets of a character: a space in place of a control character that it has no
escape for, and every other one as it is. -/
def delivered (c : Char) : Char :=
  if (c.toNat < 0x20 ∨ c.toNat = 0x7f) ∧ c ∉ ['\t','\n','\r',verticalTab] then ' ' else c

theorem delivered_of_printable {c : Char} (h : ¬(c.toNat < 0x20 ∨ c.toNat = 0x7f)) :
    delivered c = c := if_neg fun hc => h hc.1

theorem reads_escapeConfigChar (c : Char) : Reads (escapeConfigChar c) [delivered c] := by
  by_cases hbackslash : c = '\\'
  · subst hbackslash
    exact reads_escape '\\'
  by_cases hquote : c = '"'
  · subst hquote
    exact reads_escape '"'
  by_cases htab : c = '\t'
  · subst htab
    exact reads_escape 't'
  by_cases hnewline : c = '\n'
  · subst hnewline
    exact reads_escape 'n'
  by_cases hreturn : c = '\r'
  · subst hreturn
    exact reads_escape 'r'
  by_cases hvertical : c = verticalTab
  · subst hvertical
    exact reads_escape 'v'
  rw [escapeConfigChar,if_neg hbackslash,if_neg hquote,if_neg htab,if_neg hnewline,if_neg hreturn,
    if_neg hvertical]
  by_cases hcontrol : c.toNat < 0x20 ∨ c.toNat = 0x7f
  · have hother : c ∉ ['\t','\n','\r',verticalTab] := by
      simp [htab,hnewline,hreturn,hvertical]
    rw [if_pos hcontrol,delivered,if_pos ⟨hcontrol,hother⟩]
    exact reads_plain (by decide) (by decide)
  · rw [if_neg hcontrol,delivered_of_printable hcontrol]
    exact reads_plain hbackslash hquote

theorem newline_notMem_escapeConfigChar (c : Char) : '\n' ∉ escapeConfigChar c := by
  by_cases hnewline : c = '\n'
  · subst hnewline
    decide
  · have hne : '\n' ≠ c := fun h => hnewline h.symm
    unfold escapeConfigChar
    repeat' split
    all_goals simp [hne]

theorem newline_notMem_escapeConfigValue (value : Text) : '\n' ∉ escapeConfigValue value := by
  intro hmem
  obtain ⟨c,-,hc⟩ := List.mem_flatMap.mp hmem
  exact newline_notMem_escapeConfigChar c hc

theorem reads_escapeConfigValue (value : Text) :
    Reads (escapeConfigValue value) (value.map delivered) :=
  reads_flatMap reads_escapeConfigChar value

theorem newline_notMem_setting {name t : Text} (hname : '\n' ∉ name) (ht : '\n' ∉ t) :
    '\n' ∉ setting name t := by
  simp [setting,hname,ht]

/-- Two settings around a line that is written out. -/
theorem settings_eq {name name' line opening opening' middle ending : Text}
    (hopening : opening = name ++ [' ','=',' ','"']) (hmiddle : middle = ['"','\n'] ++ (line ++ ['\n']))
    (hopening' : opening' = name' ++ [' ','=',' ','"']) (hending : ending = ['"','\n'])
    (t t' : Text) : opening ++ t ++ middle ++ opening' ++ t' ++ ending =
      [setting name t,line,setting name' t'].flatMap (· ++ ['\n']) := by
  subst hopening hmiddle hopening' hending
  simp [setting]

theorem curlConfig_eq (url body : Text) : curlConfig url body =
    [setting "url" (escapeConfigValue url),setting "header" "Content-Type: application/json",
      setting "data-raw" (escapeConfigValue body)].flatMap (· ++ ['\n']) := by
  have hheader : ("\"\nheader = \"Content-Type: application/json\"\n" : Text) =
      ['"','\n'] ++ (setting "header" "Content-Type: application/json" ++ ['\n']) := by
    decide +kernel
  have hurl : ("url = \"" : Text) = ("url" : Text) ++ [' ','=',' ','"'] := rfl
  have hdata : ("data-raw = \"" : Text) = ("data-raw" : Text) ++ [' ','=',' ','"'] := rfl
  have hend : ("\"\n" : Text) = ['"','\n'] := rfl
  exact settings_eq hurl hheader hdata hend _ _

theorem named_url : Named "url" := ⟨by decide,by decide⟩
theorem named_header : Named "header" := ⟨by decide,by decide⟩
theorem named_dataRaw : Named "data-raw" := ⟨by decide,by decide⟩

theorem reads_contentType :
    Reads "Content-Type: application/json" "Content-Type: application/json" :=
  reads_bare (by decide +kernel)

/-- curl reads the request that was meant, and no other option. -/
theorem curlConfig_read (url body : Text) : options (curlConfig url body) =
    [(("url" : Text),some (url.map delivered)),("header",some ("Content-Type: application/json" : Text)),
      ("data-raw",some (body.map delivered))] := by
  have hlines : ∀ l ∈ [setting "url" (escapeConfigValue url),
      setting "header" "Content-Type: application/json",
      setting "data-raw" (escapeConfigValue body)], '\n' ∉ l := by
    simp only [List.forall_mem_cons]
    exact ⟨newline_notMem_setting (by decide) (newline_notMem_escapeConfigValue url),
      newline_notMem_setting (by decide) (by decide),
      newline_notMem_setting (by decide) (newline_notMem_escapeConfigValue body),
      List.forall_mem_nil _⟩
  rw [curlConfig_eq,options_lines hlines]
  simp only [List.filterMap_cons,List.filterMap_nil,
    option_setting named_url (reads_escapeConfigValue url),
    option_setting named_header reads_contentType,
    option_setting named_dataRaw (reads_escapeConfigValue body)]

end Kuadrat
