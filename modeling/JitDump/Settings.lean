import JitDump.Container.Header
import JitDump.Toml

/-! # Settings

What a configuration document says about decoding and output. Tables and keys that mean nothing
here are passed over, and what a document leaves out keeps its default. -/

namespace JitDump

structure Settings where
  options : Container.Options
  /-- Whether listings are indented. -/
  pretty : Bool
deriving DecidableEq, Repr

namespace Settings

def default : Settings := ⟨.default, false⟩

/-- A switch that a document may leave out. -/
def switch (otherwise : Bool) : Option Toml.Value → Option Bool
  | none => some otherwise
  | some (.boolean b) => some b
  | some _ => none

/-- The switches of a group. A group is a table of switches by name or an array of them in order;
a date stands for a table that names none. -/
def group (switches : List (String × Bool)) : Option Toml.Value → Option (List Bool)
  | none | some .moment => some (switches.map (·.2))
  | some (.table _ fields) =>
    switches.mapM fun (name, otherwise) => switch otherwise (Toml.Fields.get? fields name)
  | some (.array items) =>
    switches.zipIdx.mapM fun ((_, otherwise), i) => switch otherwise items[i]?
  | some _ => none

/-- The settings of a document; none if it is malformed or has a value of the wrong kind. -/
def ofText? (text : String) : Option Settings := do
  let fields ← Toml.parse? text
  let decode ← group [("ffi", true), ("allow_debug_info", false)] (fields.get? "decode")
  let output ← group [("pretty", false)] (fields.get? "output")
  match decode, output with
  | [ffi, debug], [pretty] => some ⟨⟨ffi, debug⟩, pretty⟩
  | _, _ => none

end Settings

end JitDump
