import BitTemplate.Run.Engine

/-!
Traces of runs. An instruction has a line of its own; below it stand the values it produced and, on request, the
transforms, labels and movements of the cursor.
-/

namespace BitTemplate

/-- How much a trace shows. -/
inductive Verbosity where
  /-- Instructions and values. -/
  | standard
  /-- Transforms, labels and movements too. -/
  | verbose
  /-- The cursor of every instruction too. -/
  | veryVerbose
deriving DecidableEq, Repr

/-- The choices of a trace. -/
structure TraceStyle where
  verbosity : Verbosity
  palette : Palette
  /-- The columns of an index. -/
  indexWidth : Nat

namespace TraceStyle

/-- The style of traces of a program. -/
def ofProgram (program : Program) (verbosity : Verbosity) (color : Bool) : TraceStyle :=
  ⟨verbosity, .select color, indexColumns program.size⟩

/-- A line below an instruction. -/
def subline (style : TraceStyle) (symbol text : String) : String :=
  String.ofList (List.replicate (style.indexWidth + 2) ' ') ++ symbol ++ " " ++ text

/-- A line that the standard verbosity leaves out. -/
def detail (style : TraceStyle) (symbol text : String) : Option String :=
  if style.verbosity = .standard then none else some (style.subline symbol text)

/-- The line of an event, if the verbosity shows it. -/
def line? (style : TraceStyle) : Event → Option String
  | .instruction step instruction cursor =>
    let line := rightAligned style.indexWidth step ++ "  " ++ style.palette.faint instruction.token ++ "  "
      ++ instruction.directive.text style.palette
    some <|
      if style.verbosity = .veryVerbose then line ++ "  " ++ style.palette.faint ("@" ++ toString cursor) else line
  | .value value start stop =>
    let region := style.palette.faint ("[" ++ toString start ++ ", " ++ toString stop ++ ")")
    some (style.subline "=" (value.format false style.palette ++ "  " ++ region))
  | .transform transform => style.detail "~" transform.text
  | .label name value =>
    let shown := match value with
      | some value => value.format false style.palette
      | none => "none"
    style.detail "#" (style.palette.literal (Text.quoted name) ++ " = " ++ shown)
  | .seek source target => style.detail ">" (toString source ++ " -> " ++ toString target)

/-- The lines of a run. -/
def lines (style : TraceStyle) (e : Engine) : List String :=
  e.events.reverse.filterMap style.line?

end TraceStyle

end BitTemplate
