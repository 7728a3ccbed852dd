import Monotype.Text.Digit
import Monotype.Text.Quoted

/-!
# Options and operands

A general reader for command lines.  An argument that starts with a dash is an option; it may be
written in full, by an unambiguous start of a long name, with its value after `=`, or, for
one-letter switches, together with others.  `--` ends the options; as a value it says that there is
none.  Negative numbers, texts with a space and a lone dash are operands.

All arguments are sorted first, then taken from left to right.  A grammar has one operand: a text
that must be there, or a command that takes all arguments after it.  What nothing takes is left
over.
-/

namespace Monotype

namespace Command

/-- The end of a program before its work begins: the exit status and what is written. -/
structure Stop where
  status : Nat
  out : String
  err : String

inductive Effect (σ : Type) where
  | switch (set : σ → σ)
  -- An option with a value, which may be restricted to some texts.  The value may be withheld.
  | value (choices : Option (List String)) (set : Option String → σ → σ)
  | print (text : String)

def Effect.takesValue {σ : Type} : Effect σ → Bool
  | .value _ _ => true
  | _ => false

structure Choice (σ : Type) where
  names : List String
  effect : Effect σ

inductive Operand (σ : Type) where
  | required (name : String) (set : String → σ → σ)
  -- One of some commands, which takes all arguments after it.
  | command (name : String) (choices : List String)

/-- The grammar of a command line. -/
structure Grammar (σ : Type) where
  program : String
  usage : String
  options : List (Choice σ)
  operand : Operand σ

namespace Grammar

variable {σ : Type}

def fail (g : Grammar σ) (message : String) : Stop :=
  ⟨2, "", g.usage ++ "\n" ++ g.program ++ ": error: " ++ message ++ "\n"⟩

def failAt (g : Grammar σ) (c : Choice σ) (message : String) : Stop :=
  g.fail ("argument " ++ "/".intercalate c.names ++ ": " ++ message)

def option? (g : Grammar σ) (name : String) : Option (Choice σ) :=
  g.options.find? fun c => c.names.contains name

def named (g : Grammar σ) : List (String × Choice σ) :=
  g.options.flatMap fun c => c.names.map fun n => (n, c)

end Grammar

inductive Piece (σ : Type) where
  | dashes
  | plain (text : String)
  -- An option that the grammar knows, with its name as the grammar spells it and the text that is
  -- written together with it: letters that follow a one-letter name, or what stands behind an
  -- equals sign.
  | option (choice : Choice σ) (name : String) (attached : Option (List Char))
  | unknown (text : String)

def cutAtEquals (cs : List Char) : List Char × Option (List Char) :=
  match cs.dropWhile (· ≠ '=') with
  | _ :: rest => (cs.takeWhile (· ≠ '='), some rest)
  | [] => (cs, none)

def withoutLineEnd (cs : List Char) : List Char :=
  if cs.getLast? = some '\n' then cs.dropLast else cs

/-- Whether the text is a negative number: a dash, then digits of any script, of which the last ones
may follow a point.  A line end may follow. -/
def isNegativeNumber (cs : List Char) : Bool :=
  match withoutLineEnd cs with
  | '-' :: ds =>
      match ds.dropWhile Text.isDecimalDigit with
      | [] => !ds.isEmpty
      | '.' :: fraction => !fraction.isEmpty && fraction.all Text.isDecimalDigit
      | _ => false
  | _ => false

namespace Grammar

variable {σ : Type}

/-- The options that an argument which is no full name could mean. -/
def candidates (g : Grammar σ) (cs : List Char) :
    List (Choice σ × String × Option (List Char)) :=
  match cs with
  | '-' :: '-' :: _ =>
      let (start, value) := cutAtEquals cs
      g.named.filterMap fun (name, c) =>
        if start.isPrefixOf name.toList then some (c, name, value) else none
  | cs =>
      g.named.filterMap fun (name, c) =>
        if name.toList = cs.take 2 then some (c, name, some (cs.drop 2))
        else if cs.isPrefixOf name.toList then some (c, name, none)
        else none

/-- What an argument is, given that the options have not ended. -/
def classify (g : Grammar σ) (arg : String) : Except Stop (Piece σ) :=
  let cs := arg.toList
  match cs with
  | [] => .ok (.plain arg)
  | first :: rest =>
      if first ≠ '-' then .ok (.plain arg)
      else
        match g.option? arg with
        | some c => .ok (.option c arg none)
        | none =>
            if rest.isEmpty then .ok (.plain arg)
            else
              -- A value may stand behind the name and an equals sign.
              let (start, value) := cutAtEquals cs
              let name := String.ofList start
              match g.option? name, value with
              | some c, some v => .ok (.option c name (some v))
              | _, _ =>
                  match g.candidates cs with
                  | [(c, name, attached)] => .ok (.option c name attached)
                  | [] =>
                      if isNegativeNumber cs || cs.contains ' ' then .ok (.plain arg)
                      else .ok (.unknown arg)
                  | several =>
                      .error (g.fail ("ambiguous option: " ++ arg ++ " could match " ++
                        ", ".intercalate (several.map fun c => c.2.1)))

/-- Sort all arguments; behind `--` there are operands only. -/
def classifyAll (g : Grammar σ) : List String → Except Stop (List (String × Piece σ))
  | [] => .ok []
  | arg :: args =>
      if arg = "--" then .ok ((arg, .dashes) :: args.map fun a => (a, .plain a))
      else do
        let piece ← g.classify arg
        let pieces ← classifyAll g args
        return (arg, piece) :: pieces

/-- The options of one argument, the last one perhaps still without its value. -/
structure Cluster (σ : Type) where
  ready : List (Choice σ × Option String)
  -- An option that finds its value, if it takes one, in the next argument.
  last : Option (Choice σ)

def Cluster.cons (c : Choice σ) (r : Cluster σ) : Cluster σ :=
  { r with ready := (c, none) :: r.ready }

/-- Take apart the text that is written together with an option.  An option with a value takes all
of it.  Behind a switch whose name is `short`, with one dash, each character must name another
option. -/
def cluster (g : Grammar σ) (c : Choice σ) (short : Bool) (cs : List Char) :
    Except Stop (Cluster σ) :=
  if c.effect.takesValue then .ok ⟨[(c, some (String.ofList cs))], none⟩
  else
    let ignored : Stop :=
      g.failAt c ("ignored explicit argument " ++ Text.quoted (String.ofList cs))
    match cs with
    | [] => .error ignored
    | x :: rest =>
        if short then
          match g.option? (String.ofList ['-', x]) with
          | none => .error ignored
          | some next =>
              if rest.isEmpty then .ok ⟨[(c, none)], some next⟩
              else (cluster g next true rest).map (Cluster.cons c)
        else .error ignored

def isShort (name : String) : Bool :=
  match name.toList with
  | '-' :: '-' :: _ => false
  | _ => true

def optionsOf (g : Grammar σ) (c : Choice σ) (name : String) :
    Option (List Char) → Except Stop (Cluster σ)
  | none => .ok ⟨[], some c⟩
  | some cs => g.cluster c (isShort name) cs

/-- Let an option take effect.  The mark that ends the options is no value. -/
def take (g : Grammar σ) (settings : σ) (c : Choice σ) (value : Option String) :
    Except Stop σ :=
  match c.effect with
  | .switch set => .ok (set settings)
  | .print text => .error ⟨0, text, ""⟩
  | .value choices set =>
      match value.filter (· ≠ "--"), choices with
      | some v, some choices =>
          if choices.contains v then .ok (set (some v) settings)
          else
            .error (g.failAt c ("invalid choice: " ++ Text.quoted v ++ " (choose from " ++
              ", ".intercalate (choices.map fun c : String => Text.quoted c) ++ ")"))
      | v, _ => .ok (set v settings)

def takeAll (g : Grammar σ) (settings : σ) :
    List (Choice σ × Option String) → Except Stop σ
  | [] => .ok settings
  | (c, v) :: cs => do takeAll g (← g.take settings c v) cs

structure Parsed (σ : Type) where
  settings : σ
  command : Option (String × List String)
  left : List String

structure Progress (σ : Type) where
  settings : σ
  placed : Bool
  left : List String

/-- Read the operand at the start of the arguments, if it is still wanted and one is there: the
progress, or the command with its arguments, and the number of arguments that it takes. -/
def operandAt (g : Grammar σ) (p : Progress σ) (args : List (String × Piece σ)) :
    Except Stop (Option (Progress σ × Option (String × List String) × Nat)) :=
  if p.placed then .ok none
  else
    let lead := args.takeWhile fun a => match a.2 with
      | .dashes => true
      | _ => false
    match args.drop lead.length with
    | (text, .plain _) :: rest =>
        match g.operand with
        | .required _ set =>
            let trail := rest.takeWhile fun a => match a.2 with
              | .dashes => true
              | _ => false
            let p := { p with settings := set text p.settings, placed := true }
            .ok (some (p, none, lead.length + 1 + trail.length))
        | .command name choices =>
            -- The command takes all the rest, options included.
            let words := args.map Prod.fst
            let first := words.headD ""
            if choices.contains first then
              .ok (some ({ p with placed := true }, some (first, words.tail), args.length))
            else
              .error (g.fail ("argument " ++ name ++ ": invalid choice: " ++ Text.quoted first ++
                " (choose from " ++
                ", ".intercalate (choices.map fun c : String => Text.quoted c) ++ ")"))
    | _ => .ok none

/-- Take the arguments from left to right; `fuel` bounds their number. -/
def run (g : Grammar σ) : Nat → Progress σ → List (String × Piece σ) → Except Stop (Parsed σ)
  | 0, p, _ => .ok ⟨p.settings, none, p.left⟩
  | _ + 1, p, [] =>
      match g.operand with
      | .required name _ =>
          if p.placed then .ok ⟨p.settings, none, p.left⟩
          else .error (g.fail ("the following arguments are required: " ++ name))
      | .command _ _ => .ok ⟨p.settings, none, p.left⟩
  | fuel + 1, p, (_, .unknown text) :: args =>
      run g fuel { p with left := p.left ++ [text] } args
  | fuel + 1, p, (_, .option c name attached) :: args => do
      let cluster ← g.optionsOf c name attached
      let (last, args) ← match cluster.last, args with
        | none, args => pure ([], args)
        | some c, args =>
            -- A value may stand in the next argument, unless that is an option.
            if c.effect.takesValue then
              match args with
              | (text, .plain _) :: args => pure ([(c, some text)], args)
              | _ => throw (g.failAt c "expected one argument")
            else pure ([(c, none)], args)
      let settings ← g.takeAll p.settings (cluster.ready ++ last)
      run g fuel { p with settings := settings } args
  | fuel + 1, p, (text, piece) :: args => do
      match ← g.operandAt p ((text, piece) :: args) with
      | some (p, some command, _) => return ⟨p.settings, some command, p.left⟩
      | some (p, none, n) => run g fuel p (((text, piece) :: args).drop n)
      | none => run g fuel { p with left := p.left ++ [text] } args

def parse (g : Grammar σ) (settings : σ) (args : List String) : Except Stop (Parsed σ) := do
  let pieces ← g.classifyAll args
  g.run (pieces.length + 1) ⟨settings, false, []⟩ pieces

end Grammar

end Command

end Monotype
