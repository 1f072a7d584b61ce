/-
Options as text: read from JSON, and shown in one line.
-/
import LoopLowering.Options.Basic
import LoopLowering.Text.Json
import LoopLowering.Text.Quoted

namespace LoopLowering.Options

open LoopLowering.Text

/-- The names of the options, in order. -/
def fieldNames : List String := ["function_name", "result_name", "break_sentinel", "return_key"]

/-- Read options from JSON text; what is not given has its default. -/
def read? (text : String) : Option Options := do
  let standard : Options := {}
  match ← (← Json.read? text).fields? fieldNames with
  | [functionName, resultName, breakSentinel, returnKey] =>
    return {
      functionName := ← Json.field? Json.text? standard.functionName functionName
      resultName := ← Json.field? Json.text? standard.resultName resultName
      breakSentinel := ← Json.field? Json.text? standard.breakSentinel breakSentinel
      returnKey := ← Json.field? Json.text? standard.returnKey returnKey }
  | _ => none

/-- The options in one line. -/
def summary (options : Options) : String :=
  "function=" ++ options.functionName ++ " result=" ++ options.resultName ++
    " break=" ++ quoted options.breakSentinel ++ " return-key=" ++ options.returnKey

end LoopLowering.Options
