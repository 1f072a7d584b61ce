/-
The dialects of the source language.
-/
import LoopLowering.Text.Json

namespace LoopLowering

/-- Which dialect a source file is written in. -/
structure Dialect where
  /-- With types. -/
  typescript : Bool := false
  /-- With elements in markup. -/
  jsx : Bool := false
deriving DecidableEq, Inhabited, Repr

namespace Dialect

open LoopLowering.Text

/-- Whether a file name ends in an extension. -/
def hasExtension (extension filename : String) : Bool :=
  extension.toList.isSuffixOf filename.toList

/-- The dialect a file name's extension asks for. -/
def ofFilename (filename : String) : Dialect where
  typescript := hasExtension ".ts" filename || hasExtension ".tsx" filename
  jsx := hasExtension ".tsx" filename || hasExtension ".jsx" filename

/-- Read a dialect from JSON text; what is not given is off. -/
def read? (text : String) : Option Dialect := do
  match ← (← Json.read? text).fields? ["typescript", "jsx"] with
  | [typescript, jsx] =>
    return {
      typescript := ← Json.field? Json.bool? false typescript
      jsx := ← Json.field? Json.bool? false jsx }
  | _ => none

end Dialect

end LoopLowering
