import PathTyping.Text.Printable
import PathTyping.Text.Extender

/-!
# Text shown between quotes

A string is shown with its quotes, backslashes, controls and all that would not be seen escaped.
There are three spellings.  `quote` is that of string constants: every extender is escaped, and the
single quote is left alone.  `quotePath` is that of file names: every extender and both quotes are
escaped.  `escapeLexeme` is that of tokens in messages: both quotes are escaped, and an extender
only where nothing stands before it.

1. `escapeChar_of_isPrintable`: what prints, and is no quote or backslash, stands for itself.
-/

namespace PathTyping.Text

/-- The code point in lower hexadecimal digits between braces. -/
def codePoint (c : Char) : List Char :=
  ['\\', 'u', '\x7b'] ++ Nat.toDigits 16 c.toNat ++ ['\x7d']

/-- How `c` is shown, where the characters of `quotes` take a backslash and `extenders` tells
whether a mark that extends the character before it is escaped. -/
def escapeChar (quotes : List Char) (extenders : Bool) (c : Char) : List Char :=
  match c with
  | '\x00' => ['\\', '0']
  | '\t' => ['\\', 't']
  | '\r' => ['\\', 'r']
  | '\n' => ['\\', 'n']
  | '\\' => ['\\', '\\']
  | c =>
    if c ∈ quotes then ['\\', c]
    else if extenders && isExtender c then codePoint c
    else if isPrintable c then [c]
    else codePoint c

def quote (text : String) : String :=
  String.ofList ('"' :: (text.toList.flatMap (escapeChar ['"'] true) ++ ['"']))

def quotePath (path : String) : String :=
  String.ofList ('"' :: (path.toList.flatMap (escapeChar ['"', '\''] true) ++ ['"']))

def escapeLexeme (text : String) : String :=
  match text.toList with
  | [] => ""
  | c :: rest =>
    String.ofList
      (escapeChar ['"', '\''] true c ++ rest.flatMap (escapeChar ['"', '\''] false))

theorem not_isPrintable_of_control {c : Char} (h : c ∈ ['\x00', '\t', '\r', '\n']) :
    isPrintable c = false := by
  simp only [List.mem_cons, List.not_mem_nil, or_false] at h
  rcases h with rfl | rfl | rfl | rfl <;> rfl

theorem escapeChar_of_isPrintable {quotes : List Char} {c : Char} (hq : c ∉ quotes)
    (hb : c ≠ '\\') (hp : isPrintable c = true) : escapeChar quotes false c = [c] := by
  have hc : c ∉ ['\x00', '\t', '\r', '\n'] := fun h => by
    simp [not_isPrintable_of_control h] at hp
  unfold escapeChar
  split <;> simp_all

end PathTyping.Text
