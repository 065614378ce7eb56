/-
The shipped regex library, `conf/regexlib.dat`: every pattern the
sources ask for by name, under that name.

The patterns are written with the constructors of the pattern layer and
are to be read against the file line by line. Three habits of the file
show in the definitions:

- inside brackets a backslash stands for itself, so `[@&\$]` has four
  members and `[a-zA-Z0-9_\.]` admits a backslash;
- `error` takes its number without a blank (`[[:space:]]*`), where
  `done` asks for one (`[[:space:]]+`);
- `match_var`, `format_*`, `method_*` and `outvar_*` have no `$`.

`comment`, `get_state` and `post_state` are in the file but no source
names them; they are left out.
-/
import Appserver.Lib.Ere

namespace Appserver.Regexlib

open Bytes Ere

-- ======================================================= building blocks

/-- One given byte. -/
def one (c : Char) : Atom := ⟨(· == ch c), .one⟩

/-- A keyword, byte by byte. -/
def lit (s : String) : List Item := s.toList.map fun c => ⟨false, [one c]⟩

/-- `[[:space:]]*`. -/
def spaces : Atom := ⟨isSpace, .star⟩

/-- `[[:space:]]+`. -/
def blanks : Atom := ⟨isSpace, .plus⟩

/-- `[0-9]+`. -/
def digits : Atom := ⟨isDigit, .plus⟩

/-- `[a-zA-Z][a-zA-Z0-9_]*`. -/
def ident : List Atom := [⟨isAlpha, .one⟩, ⟨isIdent, .star⟩]

/-- `.+`. -/
def some1 : Atom := ⟨fun _ => true, .plus⟩

/-- `[@&\$]`: the backslash is a member. -/
def sigil : Atom :=
  ⟨fun b => b == ch '@' || b == ch '&' || b == ch '\\' || b == ch '$', .one⟩

/-- An item outside any group. -/
def item (a : Atom) : Item := ⟨false, [a]⟩

-- ========================================================= variable names

/-- `@[0-9]+\.[a-zA-Z][a-zA-Z0-9_]*`. -/
def longName : List Atom := one '@' :: digits :: one '.' :: ident

/-- `@[a-zA-Z][a-zA-Z0-9_]*`. -/
def shortName : List Atom := one '@' :: ident

/-- `&[a-zA-Z][a-zA-Z0-9_]*`. -/
def globalName : List Atom := one '&' :: ident

/-- `\$[0-9]+`. -/
def propName : List Atom := [one '$', digits]

/-- `\$[a-zA-Z][a-zA-Z0-9_\.]*`: the backslash is a member. -/
def jsonName : List Atom :=
  [one '$', ⟨isAlpha, .one⟩,
    ⟨fun b => isIdent b || b == ch '\\' || b == ch '.', .star⟩]

def lvar : Pattern := group longName
def slvar : Pattern := group shortName
def gvar : Pattern := group globalName
def pvar : Pattern := group propName

/-- `[[:space:]]*\??[[:space:]]*`, in front of a term. -/
def questionPad : List Atom := [spaces, ⟨(· == ch '?'), .opt⟩, spaces]

def defLocalVar : Pattern := skipThen questionPad longName
def defGlobalVar : Pattern := skipThen questionPad globalName
def defProp : Pattern := skipThen questionPad propName
def defJson : Pattern := skipThen questionPad jsonName
def defLocalShort : Pattern := skipThen questionPad shortName

-- ========================================================== assignments

/-- `^[[:space:]]*(name)[[:space:]]*=[[:space:]]*`. -/
def assignTo (name : List Atom) : List Item :=
  [item spaces, ⟨true, name⟩, item spaces] ++ lit "=" ++ [item spaces]

/-- An unquoted right-hand side: its first byte is captured. -/
def equalTo (name : List Atom) : Pattern :=
  ⟨true, assignTo name ++ [⟨true, [sigil]⟩], false⟩

/-- A right-hand side between two quotes of one kind, and nothing else on
the line. -/
def streqTo (name : List Atom) (q : Char) : Pattern :=
  ⟨true, assignTo name ++ [item (one q), ⟨true, [some1]⟩, item (one q),
    item spaces], true⟩

def localEqual : Pattern := equalTo longName
def globalEqual : Pattern := equalTo globalName
def shortEqual : Pattern := equalTo shortName
def localStreqs : Pattern := streqTo longName '\''
def globalStreqs : Pattern := streqTo globalName '\''
def shortStreqs : Pattern := streqTo shortName '\''
def localStreqd : Pattern := streqTo longName '"'
def globalStreqd : Pattern := streqTo globalName '"'
def shortStreqd : Pattern := streqTo shortName '"'

-- ============================================================== headers

/-- `^[[:space:]]*([0-9]+)[[:space:]]+keyword[[:space:]]*$`. -/
def header (keyword : String) : Pattern :=
  ⟨true, [item spaces, ⟨true, [digits]⟩, item blanks] ++ lit keyword
    ++ [item spaces], true⟩

def endState : Pattern := header "end"
def fileState : Pattern := header "file"
def regexState : Pattern := header "regex"
def queryState : Pattern := header "query"
def matchState : Pattern := header "match"
def httpState : Pattern := header "http"
def mailState : Pattern := header "mail"
def smsState : Pattern := header "sms"
def scriptState : Pattern := header "script"
def shellState : Pattern := header "shell"
def structState : Pattern := header "structure"
def gotoState : Pattern := header "goto"

-- ============================================================== clauses

/-- `^[[:space:]]*$`. -/
def empty : Pattern := ⟨true, [item spaces], true⟩

/-- `^[[:space:]]*endstate[[:space:]]*$`. -/
def endstate : Pattern :=
  ⟨true, [item spaces] ++ lit "endstate" ++ [item spaces], true⟩

/-- A keyword, white space as `gap` says, and a number. -/
def numbered (keyword : String) (gap : Atom) : Pattern :=
  ⟨true, [item spaces] ++ lit keyword ++ [item gap, ⟨true, [digits]⟩,
    item spaces], true⟩

def done : Pattern := numbered "done" blanks
def error : Pattern := numbered "error" spaces

/-- A keyword and a text between two quotes of one kind. -/
def quoted (keyword : String) (q : Char) : Pattern :=
  ⟨true, [item spaces] ++ lit keyword ++ [item blanks, item (one q),
    ⟨true, [some1]⟩, item (one q), item spaces], true⟩

def addheader : Pattern := quoted "addheader" '\''
def cacert : Pattern := quoted "cacert" '\''
def dataDouble : Pattern := quoted "data" '"'
def dataSingle : Pattern := quoted "data" '\''
def db : Pattern := quoted "db" '\''
def file : Pattern := quoted "file" '\''
def httpParams : Pattern := quoted "parameters" '"'
def logpfxDouble : Pattern := quoted "logprefix" '"'
def logpfxSingle : Pattern := quoted "logprefix" '\''
def pkey : Pattern := quoted "pkey" '\''
def pkeyenc : Pattern := quoted "pkeyenc" '\''
def query : Pattern := quoted "query" '"'
def regexDouble : Pattern := quoted "regex" '"'
def shell : Pattern := quoted "shell" '"'
def ucertenc : Pattern := quoted "ucertenc" '\''
def url : Pattern := quoted "url" '"'
def usercert : Pattern := quoted "usercert" '\''
def attach : Pattern := quoted "attach" '\''
def mcc : Pattern := quoted "cc" '"'
def mfrom : Pattern := quoted "from" '"'
def mto : Pattern := quoted "to" '"'
def subject : Pattern := quoted "subject" '"'

/-- `^[[:space:]]*case[[:space:]]+"(.+)"[[:space:]]+([0-9]+)[[:space:]]*$`. -/
def caseRegex : Pattern :=
  ⟨true, [item spaces] ++ lit "case" ++ [item blanks, item (one '"'),
    ⟨true, [some1]⟩, item (one '"'), item blanks, ⟨true, [digits]⟩,
    item spaces], true⟩

/-- A keyword and a second one behind white space; what follows is not
looked at. -/
def twoWords (keyword word : String) : Pattern :=
  ⟨true, [item spaces] ++ lit keyword ++ [item blanks] ++ lit word, false⟩

def formatJson : Pattern := twoWords "format" "json"
def formatXml : Pattern := twoWords "format" "xml"
def methodGet : Pattern := twoWords "method" "GET"
def methodPost : Pattern := twoWords "method" "POST"

/-- A keyword and a captured text behind white space; what follows is not
looked at. -/
def namedBy (keyword : String) (name : List Atom) : Pattern :=
  ⟨true, [item spaces] ++ lit keyword ++ [item blanks, ⟨true, name⟩], false⟩

/-- `^[[:space:]]*match[[:space:]]+([@&].+)`: to the end of the line. -/
def matchVar : Pattern :=
  namedBy "match" [⟨fun b => b == ch '@' || b == ch '&', .one⟩, some1]
def outvarLong : Pattern := namedBy "outputvar" longName
def outvarShort : Pattern := namedBy "outputvar" shortName

end Appserver.Regexlib
