import Xv6.User.Shell.Tokens

/-! sh.c: the five parsing functions and parsecmd(). They share `*ps`, which is the
state of `Parse`. malloc() is taken to succeed. -/

namespace Xv6.Shell

/-- A parsing function returns with `*ps` moved, prints a message and exits, or has
not returned within its fuel. -/
inductive Outcome (α : Type) where
  | ok (a : α) (ps : List UInt8)
  | panic (msg : String)
  | fuel
  deriving DecidableEq, Repr

def Parse (α : Type) : Type := List UInt8 → Outcome α

namespace Parse

variable {α β : Type}

def bind (m : Parse α) (f : α → Parse β) : Parse β := fun ps =>
  match m ps with
  | .ok a ps' => f a ps'
  | .panic msg => .panic msg
  | .fuel => .fuel

instance : Monad Parse where
  pure a := fun ps => .ok a ps
  bind := Parse.bind

def panic (msg : String) : Parse α := fun _ => .panic msg

def fuel : Parse α := fun _ => .fuel

def gettoken : Parse Token := fun ps => .ok (Shell.gettoken ps) (Shell.gettoken ps).rest

def peek (toks : List UInt8) : Parse Bool := fun ps => .ok (Shell.peek ps toks) (skip ps)

end Parse

/-! ## Commands -/

def oRdonly : Nat := 0x000

def oWronly : Nat := 0x001

def oCreate : Nat := 0x200

def maxargs : Nat := 10

/-- struct redircmd without the command it redirects -/
structure Redir (W : Type) where
  file : W
  mode : Nat
  fd : Nat
  deriving DecidableEq, Repr

/-- struct cmd over the words `W`: the spans parsecmd() finds, or the strings the tree
stands for. -/
inductive Cmd (W : Type) where
  | exec (argv : List W)
  | redir (cmd : Cmd W) (r : Redir W)
  | pipe (left right : Cmd W)
  | list (left right : Cmd W)
  | back (cmd : Cmd W)
  deriving DecidableEq, Repr

namespace Cmd

variable {W V : Type}

/-- The redirections `rs` put around `cmd` one after the other. -/
def redirected (cmd : Cmd W) (rs : List (Redir W)) : Cmd W := rs.foldl .redir cmd

/-- `n` backcmds around `cmd`. -/
def backs : Nat → Cmd W → Cmd W
  | 0, cmd => cmd
  | n + 1, cmd => backs n (.back cmd)

def map (f : W → V) : Cmd W → Cmd V
  | .exec argv => .exec (argv.map f)
  | .redir cmd r => .redir (cmd.map f) ⟨f r.file, r.mode, r.fd⟩
  | .pipe left right => .pipe (left.map f) (right.map f)
  | .list left right => .list (left.map f) (right.map f)
  | .back cmd => .back (cmd.map f)

/-- The words of the tree in the order in which nulterminate() comes to them. -/
def words : Cmd W → List W
  | .exec argv => argv
  | .redir cmd r => cmd.words ++ [r.file]
  | .pipe left right => left.words ++ right.words
  | .list left right => left.words ++ right.words
  | .back cmd => cmd.words

end Cmd

/-! ## The parsing functions -/

/-- The redirection a token in front of a file name stands for. -/
def redirOf (tok : UInt8) (file : Span) (rs : List (Redir Span)) : List (Redir Span) :=
  if tok = lt then rs ++ [⟨file, oRdonly, 0⟩]
  else if tok = gt then rs ++ [⟨file, oWronly ||| oCreate, 1⟩]
  else if tok = appendCode then rs ++ [⟨file, oWronly ||| oCreate, 1⟩]
  else rs

/-- The command itself is not read, and parseexec() goes on to fill it in, so the
redirections around it are kept apart from it. -/
def parseredirs : Nat → List (Redir Span) → Parse (List (Redir Span))
  | 0, _ => .fuel
  | n + 1, rs => do
    if ← Parse.peek [lt, gt] then
      let tok ← Parse.gettoken
      let file ← Parse.gettoken
      if file.ret ≠ wordCode then
        Parse.panic "missing file for redirection"
      else
        parseredirs n (redirOf tok.ret file.span rs)
    else
      pure rs

/-- The loop of parseexec(). -/
def parseargs : Nat → List Span → List (Redir Span) → Parse (Cmd Span)
  | 0, _, _ => .fuel
  | n + 1, argv, rs => do
    if ← Parse.peek [bar, rpar, amp, semi] then
      pure ((Cmd.exec argv).redirected rs)
    else
      let tok ← Parse.gettoken
      if tok.ret = 0 then
        pure ((Cmd.exec argv).redirected rs)
      else if tok.ret ≠ wordCode then
        Parse.panic "syntax"
      else if argv.length + 1 ≥ maxargs then
        Parse.panic "too many args"
      else
        let rs' ← parseredirs n rs
        parseargs n (argv ++ [tok.span]) rs'

/-- The loop of parseline(). -/
def parsebacks : Nat → Cmd Span → Parse (Cmd Span)
  | 0, _ => .fuel
  | n + 1, cmd => do
    if ← Parse.peek [amp] then
      let _ ← Parse.gettoken
      parsebacks n (.back cmd)
    else
      pure cmd

mutual

def parseline : Nat → Parse (Cmd Span)
  | 0 => .fuel
  | n + 1 => do
    let cmd ← parsepipe n
    let cmd ← parsebacks n cmd
    if ← Parse.peek [semi] then
      let _ ← Parse.gettoken
      let right ← parseline n
      pure (.list cmd right)
    else
      pure cmd

def parsepipe : Nat → Parse (Cmd Span)
  | 0 => .fuel
  | n + 1 => do
    let cmd ← parseexec n
    if ← Parse.peek [bar] then
      let _ ← Parse.gettoken
      let right ← parsepipe n
      pure (.pipe cmd right)
    else
      pure cmd

def parseblock : Nat → Parse (Cmd Span)
  | 0 => .fuel
  | n + 1 => do
    if ← Parse.peek [lpar] then
      let _ ← Parse.gettoken
      let cmd ← parseline n
      if ← Parse.peek [rpar] then
        let _ ← Parse.gettoken
        let rs ← parseredirs n []
        pure (cmd.redirected rs)
      else
        Parse.panic "syntax - missing )"
    else
      Parse.panic "parseblock"

def parseexec : Nat → Parse (Cmd Span)
  | 0 => .fuel
  | n + 1 => do
    if ← Parse.peek [lpar] then
      parseblock n
    else
      let rs ← parseredirs n []
      parseargs n [] rs

end

/-! ## NUL-termination -/

/-- The place in the line of a pointer into it. -/
def offset (line s : List UInt8) : Nat := line.length - s.length

/-- `*eq = 0` -/
def terminate (line : List UInt8) (buf : List UInt8) (w : Span) : List UInt8 :=
  buf.set (offset line w.eq) 0

def nulterminate (line : List UInt8) : Cmd Span → List UInt8 → List UInt8
  | .exec argv, buf => argv.foldl (terminate line) buf
  | .redir cmd r, buf => terminate line (nulterminate line cmd buf) r.file
  | .pipe left right, buf => nulterminate line right (nulterminate line left buf)
  | .list left right, buf => nulterminate line right (nulterminate line left buf)
  | .back cmd, buf => nulterminate line cmd buf

/-- parsecmd() on the buffer `line` and a NUL: the tree, and the buffer after it. -/
def parsecmd (fuel : Nat) (line : List UInt8) : Outcome (Cmd Span × List UInt8) :=
  (do
    let cmd ← parseline fuel
    let _ ← Parse.peek []
    fun ps =>
      if ps ≠ [] then .panic "syntax"
      else .ok (cmd, nulterminate line cmd (line ++ [0])) ps : Parse _) line

/-- The string at a pointer into the buffer. -/
def stringAt (line buf : List UInt8) (w : Span) : List UInt8 :=
  (buf.drop (offset line w.q)).takeWhile (· ≠ 0)

end Xv6.Shell
