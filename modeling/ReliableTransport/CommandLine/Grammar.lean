/-! The words of a command line as options and plain values. An option is given by its long name
or by a letter; its value follows an equals sign, or directly after the letter, or is the next
word, which then must not look like an option itself. Two dashes end the options. Every value is
looked at where it stands, and the first thing out of place decides how reading ends. -/
namespace ReliableTransport

structure Switch where
  long : String
  short : Option Char
  value : Option (String → Bool)

structure Grammar where
  switches : List Switch
  positionals : List (String → Bool)
  version : Bool

inductive Stop
  | usage | help | version
  deriving DecidableEq, Repr

structure Words where
  options : List (String × String)
  positionals : List String
  deriving DecidableEq, Repr

namespace Words

def empty : Words := ⟨[],[]⟩

def option? (w : Words) (long : String) : Option String :=
  (w.options.find? fun o => o.1 = long).map (·.2)

end Words

namespace Grammar

def dashed (s : String) : Bool :=
  match s.toList with
  | '-' :: _ :: _ => true
  | _ => false

/-- One more option, unless it was given before or its value is not one of its own. -/
def put (w : Words) (o : Switch) (v : String) : Except Stop Words :=
  if (w.option? o.long).isSome then .error .usage
  else if (o.value.map fun ok => ok v).getD true then
    .ok { w with options := w.options ++ [(o.long,v)] }
  else .error .usage

/-- One more plain value, unless there are enough or it is not one that can stand there. -/
def place (g : Grammar) (w : Words) (v : String) : Except Stop Words :=
  match g.positionals[w.positionals.length]? with
  | none => .error .usage
  | some ok => if ok v then .ok { w with positionals := w.positionals ++ [v] } else .error .usage

/-- What the name and the value written with it ask for: a reading that goes on, or an option that
still needs its value. -/
def long (g : Grammar) (w : Words) (name : String) (attached : Option String) :
    Except Stop (Words × Option Switch) :=
  match g.switches.find? fun o => o.long = name, attached with
  | some o, some v => if o.value.isNone then .error .usage else do return (← put w o v,none)
  | some o, none => if o.value.isNone then do return (← put w o "",none) else .ok (w,some o)
  | none, none =>
    if name = "help" then .error .help
    else if name = "version" ∧ g.version then .error .version
    else .error .usage
  | none, some _ => .error .usage

def short (g : Grammar) (w : Words) (letter : Char) (attached : List Char) :
    Except Stop (Words × Option Switch) :=
  match g.switches.find? fun o => o.short = some letter with
  | some o =>
    match attached with
    | [] => .ok (w,some o)
    | '=' :: v => do return (← put w o (String.ofList v),none)
    | v => do return (← put w o (String.ofList v),none)
  | none =>
    if letter = 'h' then .error .help
    else if letter = 'V' ∧ g.version then .error .version
    else .error .usage

def nameAndValue (cs : List Char) : String × Option String :=
  match cs.dropWhile (· ≠ '=') with
  | _ :: v => (String.ofList (cs.takeWhile (· ≠ '=')),some (String.ofList v))
  | [] => (String.ofList cs,none)

def word (g : Grammar) (w : Words) (s : String) : Except Stop (Words × Option Switch) :=
  match s.toList with
  | '-' :: '-' :: cs =>
    let o := nameAndValue cs
    g.long w o.1 o.2
  | '-' :: letter :: cs => g.short w letter cs
  | _ => do return (← g.place w s,none)

/-- Reads words up to the first plain one that `stops`, and hands back that and the rest. -/
def scan (g : Grammar) (stops : String → Bool) :
    List String → Words → Option Switch → Except Stop (Words × List String)
  | [], w, none => .ok (w,[])
  | [], _, some _ => .error .usage
  | s :: rest, w, some o =>
    if dashed s then .error .usage
    else do g.scan stops rest (← put w o s) none
  | s :: rest, w, none =>
    if s = "--" then do return (← rest.foldlM g.place w,[])
    else if !dashed s && stops s then .ok (w,s :: rest)
    else do
      let (w,o) ← g.word w s
      g.scan stops rest w o

end Grammar
end ReliableTransport
