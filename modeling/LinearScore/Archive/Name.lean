import LinearScore.Text.Utf8

/-!
# Names of archive entries

A name or a comment is a byte sequence.  The entry says whether it is UTF-8; otherwise its bytes
are characters of code page 437.

## Main definitions

* `entryText`
-/

namespace LinearScore.Archive

/-- The characters of code page 437 from the byte 128 on. -/
def upperPage : List Char := String.toList <|
  "ÇüéâäàåçêëèïîìÄÅÉæÆôöòûùÿÖÜ¢£¥₧ƒ" ++
  "áíóúñÑªº¿⌐¬½¼¡«»░▒▓│┤╡╢╖╕╣║╗╝╜╛┐" ++
  "└┴┬├─┼╞╟╚╔╩╦╠═╬╧╨╤╥╙╘╒╓╫╪┘┌█▄▌▐▀" ++
  "αßΓπΣσµτΦΘΩδ∞φε∩≡±≥≤⌠⌡÷≈°∙·√ⁿ²■\u00a0"

/-- The character of a byte in code page 437. -/
def pageChar (b : UInt8) : Char :=
  if b < 0x80 then Char.ofNat b.toNat else upperPage.getD (b.toNat - 0x80) '?'

/-- The characters of UTF-8, with the replacement character for each sequence that is broken.  The
fuel bounds the number of broken sequences. -/
def lossyChars : Nat → List UInt8 → List Char
  | 0, _ => []
  | fuel + 1, bytes =>
    match Text.decodeUtf8 bytes with
    | .ok cs => cs
    | .error fault =>
      let sound := match Text.decodeUtf8 (bytes.take fault.index) with
        | .ok cs => cs
        | .error _ => []
      match fault.length with
      | some n => sound ++ '\uFFFD' :: lossyChars fuel (bytes.drop (fault.index + n))
      | none => sound ++ ['\uFFFD']

/-- The text that a byte sequence denotes. -/
def entryText (unicode : Bool) (bytes : List UInt8) : String :=
  String.ofList (if unicode then lossyChars (bytes.length + 1) bytes else bytes.map pageChar)

end LinearScore.Archive
