import Xv6.MemMove

/-!
# The `grep` program

The matcher and the reading loop of `grep.c`. The matcher's strings are the lists of their bytes
before the NUL, so a pointer moved by one is a tail. The loop works on the global buffer: a read
puts bytes into it, `strchr` scans it, a terminator is written into it and taken back. The input
is given by the pieces that the successive reads return, and the result is what the calls of
`write` were given.
-/

namespace Xv6

namespace Grep

/-! ## Matcher -/

/-- `'^'`. -/
def caret : UInt8 := 94

/-- `'*'`. -/
def star : UInt8 := 42

/-- `'$'`. -/
def dollar : UInt8 := 36

/-- `'.'`. -/
def period : UInt8 := 46

/-- `'\n'`. -/
def newline : UInt8 := 10

mutual

/-- `matchhere`: search for `re` at the beginning of `text`. -/
def matchhere (re text : List UInt8) : Bool :=
  match re with
  | [] => true
  | c :: re =>
    if re.head? = some star then matchstar c re.tail text
    else if c = dollar ∧ re = [] then text.isEmpty
    else
      match text with
      | [] => false
      | t :: text => if c = period ∨ c = t then matchhere re text else false
termination_by (re.length, text.length, 0)
decreasing_by
  · apply Prod.Lex.left
    simp only [List.length_tail, List.length_cons]
    omega
  · apply Prod.Lex.left
    simp

/-- `matchstar`: search for `c*re` at the beginning of `text`. -/
def matchstar (c : UInt8) (re text : List UInt8) : Bool :=
  if matchhere re text then true
  else
    match text with
    | [] => false
    | t :: text => if t = c ∨ c = period then matchstar c re text else false
termination_by (re.length, text.length, 1)
decreasing_by
  · apply Prod.Lex.right
    apply Prod.Lex.right
    decide
  · apply Prod.Lex.right
    apply Prod.Lex.left
    simp

end

/-- The loop of `match` over the suffixes of the text, the empty one included. -/
def matchAnywhere (re : List UInt8) : List UInt8 → Bool
  | [] => matchhere re []
  | t :: text => if matchhere re (t :: text) then true else matchAnywhere re text

/-- `match`: whether a part of `text` matches `re`. -/
def match_ (re text : List UInt8) : Bool :=
  if re.head? = some caret then matchhere re.tail text else matchAnywhere re text

/-! ## Buffer -/

/-- `sizeof(buf)`. -/
def BUFSIZE : Nat := 1024

/-- The bytes of the string at `p`, of which at most `fuel` are looked at. -/
def stringAt (buf : Bytes) (p : Nat) : Nat → List UInt8
  | 0 => []
  | fuel + 1 => if buf p = 0 then [] else buf p :: stringAt buf (p + 1) fuel

/-- `strchr`: the first place of `c` in the string at `s`, of which at most `fuel` bytes are
looked at. -/
def strchr (buf : Bytes) (s : Nat) (c : UInt8) : Nat → Option Nat
  | 0 => none
  | fuel + 1 =>
    if buf s = 0 then none
    else if buf s = c then some s
    else strchr buf (s + 1) c fuel

/-- The `n` bytes at `p`, as `write` takes them. -/
def bytesAt (buf : Bytes) (p n : Nat) : List UInt8 := (List.range n).map fun i => buf (p + i)

/-- What a read that returns `piece` leaves at `p`. -/
def fill (buf : Bytes) (p : Nat) (piece : List UInt8) : Bytes :=
  fun a => if p ≤ a ∧ a < p + piece.length then piece.getD (a - p) 0 else buf a

/-- The inner loop of `grep`: the lines that are complete in the buffer from `p` on. It returns
the buffer, the place behind the last of them and what was written. -/
def grepLines (pattern : List UInt8) (buf : Bytes) (p : Nat) :
    Nat → Bytes × Nat × List (List UInt8)
  | 0 => (buf, p, [])
  | fuel + 1 =>
    match strchr buf p newline BUFSIZE with
    | none => (buf, p, [])
    | some q =>
      let buf := buf.store q 0
      if match_ pattern (stringAt buf p BUFSIZE) then
        let buf := buf.store q newline
        let rest := grepLines pattern buf (q + 1) fuel
        (rest.1, rest.2.1, bytesAt buf p (q + 1 - p) :: rest.2.2)
      else grepLines pattern buf (q + 1) fuel

/-- The loop of `grep` with `m` bytes left over in the buffer. A piece answers a read if it is
not empty and not longer than requested; `none` says that a piece is no answer. -/
def grepLoop (pattern : List UInt8) (buf : Bytes) (m : Nat) :
    List (List UInt8) → Option (List (List UInt8))
  | [] => some []
  | piece :: pieces =>
    let request := BUFSIZE - m - 1
    if request = 0 then some []
    else if piece = [] ∨ request < piece.length then none
    else
      let buf := fill buf m piece
      let m := m + piece.length
      let buf := buf.store m 0
      let lines := grepLines pattern buf 0 BUFSIZE
      let buf := lines.1
      let p := lines.2.1
      let m := if p = 0 then 0 else m
      let next :=
        if m > 0 then grepLoop pattern (Ulib.memmove buf 0 p (m - p : Nat)).1 (m - p) pieces
        else grepLoop pattern buf m pieces
      next.map fun writes => lines.2.2 ++ writes

/-- `grep` on the pieces that its reads return: the successive writes. -/
def grep (pattern : List UInt8) (buf : Bytes) (pieces : List (List UInt8)) :
    Option (List (List UInt8)) :=
  grepLoop pattern buf 0 pieces

end Grep

end Xv6
