import Mathlib.Data.List.Basic

/-!
# The parser of the shell

`parsecmd` of `sh.c`: the scanner `gettoken`, the lookahead `peek`, the recursive descent and
`nulterminate`. Pointers into the command line are offsets from its first character, and a word is
known by the offsets of its first character and of the one after its last. The fuel of a function
bounds the depth of its calls and the rounds of its loops; a call that runs out of it says so. Every
`malloc` returns memory.
-/

namespace Xv6

namespace Shell

/-! ## Characters -/

/-- `whitespace`: blank, tab, carriage return, newline and vertical tab. -/
def whitespace : List UInt8 := [32, 9, 13, 10, 11]

/-- `'<'`. -/
def less : UInt8 := 60

/-- `'>'`. -/
def great : UInt8 := 62

/-- `'|'`. -/
def bar : UInt8 := 124

/-- `'&'`. -/
def amp : UInt8 := 38

/-- `';'`. -/
def semicolon : UInt8 := 59

/-- `'('`. -/
def lparen : UInt8 := 40

/-- `')'`. -/
def rparen : UInt8 := 41

/-- `'+'`, what `gettoken` returns for `>>`. -/
def plus : UInt8 := 43

/-- `'a'`, what `gettoken` returns for a word. -/
def lowerA : UInt8 := 97

/-- `symbols`. -/
def symbols : List UInt8 := [less, bar, great, amp, semicolon, lparen, rparen]

/-- The symbols that are tokens by themselves, the cases of one group in `gettoken`. -/
def singles : List UInt8 := [bar, lparen, rparen, semicolon, amp, less]

/-- The test of the loops that skip blanks. -/
def blank (c : UInt8) : Bool := decide (c ∈ whitespace)

/-- The test of the loop that passes a word. -/
def wordChar (c : UInt8) : Bool := decide (c ∉ whitespace) && decide (c ∉ symbols)

/-! ## Command line -/

/-- A NUL-terminated string: the characters before the NUL. -/
structure CommandLine where
  /-- The characters. -/
  text : List UInt8
  /-- None of them is the NUL. -/
  noNul : ∀ c ∈ text, c ≠ 0

/-- The end of the line, where its NUL is. -/
def CommandLine.es (line : CommandLine) : Nat := line.text.length

/-- The buffer that holds the line with its NUL. -/
def CommandLine.buf (line : CommandLine) : List UInt8 := line.text ++ [0]

/-- The character a pointer points to. -/
def CommandLine.char (line : CommandLine) (s : Nat) : UInt8 := line.text.getD s 0

/-- The string at a pointer into a buffer. -/
def stringAt (buf : List UInt8) (s : Nat) : List UInt8 := (buf.drop s).takeWhile (· ≠ 0)

/-! ## Tokens -/

/-- The loops of the scanner: `while(s < es && test(*s)) s++`. -/
def scan (test : UInt8 → Bool) (line : CommandLine) (s : Nat) : Nat :=
  if s < line.es ∧ test (line.char s) then scan test line (s + 1) else s
termination_by line.es - s

/-- The part of the line between two pointers. -/
structure Slice where
  /-- Its first character. -/
  q : Nat
  /-- The place after its last character. -/
  eq : Nat
  deriving DecidableEq

/-- What `gettoken` returns and writes. -/
structure Gotten where
  /-- The kind of the token. -/
  ret : UInt8
  /-- Where the token is. -/
  token : Slice
  /-- The moved cursor. -/
  s : Nat

/-- The switch of `gettoken`: the kind of the token at `q`, and where it ends. -/
def switchToken (line : CommandLine) (q : Nat) : UInt8 × Nat :=
  if line.char q = 0 then (0, q)
  else if line.char q ∈ singles then (line.char q, q + 1)
  else if line.char q = great then
    if line.char (q + 1) = great then (plus, q + 2) else (great, q + 1)
  else (lowerA, scan wordChar line q)

/-- `gettoken`: the next token. -/
def gettoken (line : CommandLine) (s : Nat) : Gotten where
  ret := (switchToken line (scan blank line s)).1
  token := ⟨scan blank line s, (switchToken line (scan blank line s)).2⟩
  s := scan blank line (switchToken line (scan blank line s)).2

/-- What `peek` returns and writes. -/
structure Peeked where
  /-- Whether the next character is one of those asked for. -/
  found : Bool
  /-- The moved cursor. -/
  s : Nat

/-- `peek`: whether the next character that is not a blank is one of `toks`. -/
def peek (line : CommandLine) (s : Nat) (toks : List UInt8) : Peeked where
  found := decide (line.char (scan blank line s) ≠ 0) &&
    decide (line.char (scan blank line s) ∈ toks)
  s := scan blank line s

/-! ## Commands -/

/-- `O_RDONLY`. -/
def O_RDONLY : Nat := 0

/-- `O_WRONLY|O_CREATE`. -/
def O_WRONLY_O_CREATE : Nat := 0x201

/-- `MAXARGS`. -/
def MAXARGS : Nat := 10

/-- A parsed command. The arguments of an `execcmd` are those before the zero pointer. -/
inductive Cmd
  /-- `execcmd`. -/
  | exec (argv : List Slice)
  /-- `redircmd`. -/
  | redir (cmd : Cmd) (file : Slice) (mode fd : Nat)
  /-- `pipecmd`. -/
  | pipe (left right : Cmd)
  /-- `listcmd`. -/
  | list (left right : Cmd)
  /-- `backcmd`. -/
  | back (cmd : Cmd)
  deriving DecidableEq

/-- An argument written through the pointer to the `execcmd` under the redirections. -/
def Cmd.push (token : Slice) : Cmd → Cmd
  | .exec argv => .exec (argv ++ [token])
  | .redir cmd file mode fd => .redir (cmd.push token) file mode fd
  | .pipe left right => .pipe left right
  | .list left right => .list left right
  | .back cmd => .back cmd

/-- The switch of `parseredirs`. -/
def redirected (cmd : Cmd) (tok : UInt8) (file : Slice) : Cmd :=
  if tok = less then .redir cmd file O_RDONLY 0
  else if tok = great then .redir cmd file O_WRONLY_O_CREATE 1
  else if tok = plus then .redir cmd file O_WRONLY_O_CREATE 1
  else cmd

/-! ## Parser -/

/-- Why a parser returned no command. -/
inductive Halt
  /-- It called `panic`. -/
  | panic (text : String)
  /-- It ran out of fuel. -/
  | unfinished
  deriving DecidableEq

/-- What a parser returns and writes. -/
structure Parsed where
  /-- The command. -/
  cmd : Cmd
  /-- The moved cursor. -/
  s : Nat
  deriving DecidableEq

/-- `parseredirs`: the redirections that follow, around the command. -/
def parseredirs (line : CommandLine) : Nat → Cmd → Nat → Except Halt Parsed
  | 0, _, _ => .error .unfinished
  | fuel + 1, cmd, s =>
    let next := peek line s [less, great]
    if next.found then
      let tok := gettoken line next.s
      let file := gettoken line tok.s
      if file.ret ≠ lowerA then .error (.panic "missing file for redirection")
      else parseredirs line fuel (redirected cmd tok.ret file.token) file.s
    else .ok ⟨cmd, next.s⟩

/-- The loop of `parseexec` over the words of a command. -/
def parseargs (line : CommandLine) : Nat → Cmd → Nat → Nat → Except Halt Parsed
  | 0, _, _, _ => .error .unfinished
  | fuel + 1, cmd, argc, s =>
    let next := peek line s [bar, rparen, amp, semicolon]
    if next.found then .ok ⟨cmd, next.s⟩
    else
      let tok := gettoken line next.s
      if tok.ret = 0 then .ok ⟨cmd, tok.s⟩
      else if tok.ret ≠ lowerA then .error (.panic "syntax")
      else if MAXARGS ≤ argc + 1 then .error (.panic "too many args")
      else do
        let ret ← parseredirs line fuel (cmd.push tok.token) tok.s
        parseargs line fuel ret.cmd (argc + 1) ret.s

/-- The loop of `parseline` over the `&` after a command. -/
def parsebacks (line : CommandLine) : Nat → Cmd → Nat → Except Halt Parsed
  | 0, _, _ => .error .unfinished
  | fuel + 1, cmd, s =>
    let next := peek line s [amp]
    if next.found then parsebacks line fuel (.back cmd) (gettoken line next.s).s
    else .ok ⟨cmd, next.s⟩

mutual

/-- `parseline`. -/
def parseline (line : CommandLine) : Nat → Nat → Except Halt Parsed
  | 0, _ => .error .unfinished
  | fuel + 1, s => do
    let pipe ← parsepipe line fuel s
    let backs ← parsebacks line fuel pipe.cmd pipe.s
    let next := peek line backs.s [semicolon]
    if next.found then
      let rest ← parseline line fuel (gettoken line next.s).s
      return ⟨.list backs.cmd rest.cmd, rest.s⟩
    else return ⟨backs.cmd, next.s⟩

/-- `parsepipe`. -/
def parsepipe (line : CommandLine) : Nat → Nat → Except Halt Parsed
  | 0, _ => .error .unfinished
  | fuel + 1, s => do
    let cmd ← parseexec line fuel s
    let next := peek line cmd.s [bar]
    if next.found then
      let rest ← parsepipe line fuel (gettoken line next.s).s
      return ⟨.pipe cmd.cmd rest.cmd, rest.s⟩
    else return ⟨cmd.cmd, next.s⟩

/-- `parseexec`. -/
def parseexec (line : CommandLine) : Nat → Nat → Except Halt Parsed
  | 0, _ => .error .unfinished
  | fuel + 1, s =>
    let next := peek line s [lparen]
    if next.found then parseblock line fuel next.s
    else do
      let ret ← parseredirs line fuel (.exec []) next.s
      parseargs line fuel ret.cmd 0 ret.s

/-- `parseblock`. -/
def parseblock (line : CommandLine) : Nat → Nat → Except Halt Parsed
  | 0, _ => .error .unfinished
  | fuel + 1, s =>
    let start := peek line s [lparen]
    if start.found then do
      let cmd ← parseline line fuel (gettoken line start.s).s
      let next := peek line cmd.s [rparen]
      if next.found then parseredirs line fuel cmd.cmd (gettoken line next.s).s
      else .error (.panic "syntax - missing )")
    else .error (.panic "parseblock")

end

/-! ## Termination of the strings -/

/-- `nulterminate`: a NUL after every argument and file name. -/
def nulterminate : Cmd → List UInt8 → List UInt8
  | .exec argv, buf => argv.foldl (fun buf token => buf.set token.eq 0) buf
  | .redir cmd file _ _, buf => (nulterminate cmd buf).set file.eq 0
  | .pipe left right, buf => nulterminate right (nulterminate left buf)
  | .list left right, buf => nulterminate right (nulterminate left buf)
  | .back cmd, buf => nulterminate cmd buf

/-- What `parsecmd` returns, with the buffer as it leaves it. -/
structure ParsedCommand where
  /-- The command. -/
  cmd : Cmd
  /-- The buffer. -/
  buf : List UInt8
  deriving DecidableEq

/-- `parsecmd`. -/
def parsecmd (line : CommandLine) (fuel : Nat) : Except Halt ParsedCommand := do
  let parsed ← parseline line fuel 0
  if (peek line parsed.s []).s ≠ line.es then .error (.panic "syntax")
  else return ⟨parsed.cmd, nulterminate parsed.cmd line.buf⟩

end Shell

end Xv6
