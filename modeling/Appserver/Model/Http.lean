/-
`http.cpp`: the status line the request loop answers with, and the
percent-decoding of request parameters.

`urlDecode` scans each escape with `sscanf("%x")` into a variable that
lives outside the loop: an escape that does not scan leaves it as it
was, so its initial content, which the language does not determine, is
a parameter.
-/
import Appserver.Lib.Bytes

namespace Appserver

open Bytes

-- ========================================================== status line

/-- `HTTPreply`. -/
def httpReply : List (Nat × Str) :=
  [(404, str "Not Found"), (500, str "Internal Server Error"),
   (200, str "OK"), (100, str "Continue"), (101, str "Switching Protocols"),
   (201, str "Created"), (202, str "Accepted"),
   (203, str "Non-Authoritative Information"), (204, str "No Content"),
   (205, str "Reset Content"), (206, str "Partial Content"),
   (300, str "Multiple Choices"), (301, str "Moved Permanently"),
   (302, str "Found"), (303, str "See Other"), (304, str "Not Modified"),
   (305, str "Use Proxy"), (307, str "Temporary Redirect"),
   (400, str "Bad Request"), (401, str "Unauthorized"),
   (402, str "Payment Required"), (403, str "Forbidden"),
   (405, str "Method Not Allowed"), (406, str "Not Acceptable"),
   (407, str "Proxy Authentication Required"), (408, str "Request Time-out"),
   (409, str "Conflict"), (410, str "Gone"), (411, str "Length Required"),
   (412, str "Precondition Failed"), (413, str "Request Entity Too Large"),
   (414, str "Request-URI Too Large"), (415, str "Unsupported Media Type"),
   (416, str "Requested range not satisfiable"),
   (417, str "Expectation Failed"), (501, str "Not Implemented"),
   (502, str "Bad Gateway"), (503, str "Service Unavailable"),
   (504, str "Gateway Time-out"), (505, str "HTTP Version not supported")]

/-- `HTTPstatus`: the line, cut to what the buffer holds besides its
NUL. An unknown code takes the message at index 33. -/
def httpStatus (pfx : Str) (code buflen : Nat) : Str :=
  let message := match httpReply.find? (·.1 == code) with
    | some e => e.2
    | none => (httpReply.getD 33 (0, [])).2
  (pfx ++ str ": " ++ decimal code ++ ch ' ' :: message ++ str "\n").take
    (buflen - 1)

-- ============================================================= decoding

/-- The value of one hexadecimal digit. -/
def hexVal (b : Byte) : Option Nat :=
  if isDigit b then some (b.toNat - 48)
  else if ch 'a' ≤ b && b ≤ ch 'f' then some (b.toNat - 87)
  else if ch 'A' ≤ b && b ≤ ch 'F' then some (b.toNat - 55)
  else none

/-- The hexadecimal digits at the head of a text. -/
def hexDigits (s : Str) : List Nat := (s.map hexVal).takeWhile (·.isSome)
  |>.map (·.getD 0)

/-- The subject sequence of `%x` behind white space and sign: an optional
`0x` and at least one digit. A `0x` with no digit behind it is a matching
failure by ISO C; glibc goes its own way there, returns 1 and stores 0. -/
def scanHexDigits (s : Str) : Option Nat :=
  let ds := match s with
    | z :: x :: t =>
        if z == ch '0' && toLower x == ch 'x' then hexDigits t else hexDigits s
    | _ => hexDigits s
  if ds.isEmpty then none else some (ds.foldl (fun n d => 16 * n + d) 0)

/-- `sscanf(s, "%x", &ii)`: the value stored, `none` where nothing is. A
negative number is reduced modulo 2^32. -/
def scanHex (s : Str) : Option Nat :=
  match (cstr s).dropWhile isSpace with
  | [] => none
  | b :: t =>
      if b == ch '-' then
        (scanHexDigits t).map fun n => (2 ^ 32 - n % 2 ^ 32) % 2 ^ 32
      else if b == ch '+' then scanHexDigits t
      else scanHexDigits (b :: t)

/-- The loop of `urlDecode`; `ii` is the scanned code. -/
def urlDecodeLoop (ii : Nat) : Str → Str
  | [] => []
  | b :: rest =>
      if b == ch '%' then
        let ii := (scanHex (rest.take 2)).getD ii
        UInt8.ofNat ii :: match rest with
          | _ :: _ :: rest => urlDecodeLoop ii rest
          -- With less than two bytes behind it the escape ends the text.
          | _ => []
      else b :: urlDecodeLoop ii rest

/-- `urlDecode`; `ii` is what the uninitialised variable happens to
hold. -/
def urlDecode (ii : Nat) (src : Str) : Str := urlDecodeLoop ii src

end Appserver
