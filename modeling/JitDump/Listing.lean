import JitDump.Decimal.Layout
import JitDump.Json
import JitDump.Prototype
import JitDump.Text.Escaped
import JitDump.Text.Utf8

/-! # Listings

A listing is a JSON document of a whole prototype tree, closed by a newline. Strings are shown as
lossy text and doubles as shortest decimals; what JSON has no number for is quoted. -/

namespace JitDump

namespace Double

/-- Plain digits from a hundred-thousandth up to sixteen digits in front of the point. -/
def layout : Decimal.Layout := ⟨-5, 15⟩

/-- The text of a finite double. -/
def text (d : Double) : String :=
  (if d.isNegative then "-" else "") ++ d.shortestDecimal.text layout

/-- Infinities are named with their sign, the NaN that arithmetic makes by name alone, and any
other NaN with its bits. -/
def toJson (d : Double) : Json :=
  if d.isFinite then .number d.text
  else if d.isNaN then
    .string (if d = canonicalNaN then "nan" else "nan:0x" ++ Hex.padded 16 d.bits.toNat)
  else .string (if d.isNegative then "-inf" else "inf")

end Double

namespace Str

/-- The text of a string object, where its bytes are no text with marks in their place. -/
def text (s : Str) : String := Utf8.lossy s.bytes

def toJson (s : Str) : Json := .string s.text

/-- The text of a string object in diagnostics. -/
def describe (s : Str) : String := "GcStr(" ++ Text.quoted s.text ++ ")"

end Str

def Bytes.toJson (s : Bytes) : Json := .array (s.map fun b => .nat b.toNat)

namespace Instruction

def toJson (i : Instruction) : Json :=
  .object [("op", .nat i.op.toNat), ("a", .nat i.a.toNat), ("b", .nat i.b.toNat),
    ("c", .nat i.c.toNat), ("d", .nat i.d.toNat)]

end Instruction

namespace Number

def toJson : Number → Json
  | .int i => .tagged "Int" (.int i.toInt)
  | .float d => .tagged "Float" d.toJson

end Number

namespace Template

def Value.toJson : Value → Json
  | .nil => .string "Nil"
  | .false => .string "False"
  | .true => .string "True"
  | .int i => .tagged "Int" (.int i.toInt)
  | .num d => .tagged "Num" d.toJson
  | .str s => .tagged "Str" s.toJson

def Key.toJson : Key → Json
  | .false => .string "False"
  | .true => .string "True"
  | .int i => .tagged "Int" (.int i.toInt)
  | .num d => .tagged "Num" d.toJson
  | .str s => .tagged "Str" s.toJson

def toJson (t : Template) : Json :=
  .object [("array", .array (t.array.toList.map Value.toJson)),
    ("hash", .array (t.hash.toList.map fun (k, v) => .array [k.toJson, v.toJson]))]

end Template

namespace DebugInfo

def toJson (d : DebugInfo) : Json :=
  .object [("size", .nat d.size.toNat), ("first_line", .nat d.firstLine.toNat),
    ("line_count", .nat d.lineCount.toNat),
    ("line_info", .array (d.lines.map fun l => .nat l.toNat)),
    ("upvalue_names", .array (d.upvalueNames.map Bytes.toJson)),
    ("var_info", d.variableInfo.toJson)]

end DebugInfo

mutual

def Prototype.toJson : Prototype → Json
  | ⟨flags, params, frame, upvalueCount, instructions, upvalues, numbers, objects, debug, name⟩ =>
    .object [("flags", .nat flags.toNat), ("param_count", .nat params.toNat),
      ("frame_size", .nat frame.toNat), ("upvalue_count", .nat upvalueCount.toNat),
      ("instructions", .array (instructions.map Instruction.toJson)),
      ("upvalues", .array (upvalues.map fun u => .nat u.toNat)),
      ("numbers", .array (numbers.map Number.toJson)),
      ("objects", .array (objectsToJson [] objects)),
      ("debug", (debug.map DebugInfo.toJson).getD .null),
      ("chunk_name", name.toJson)]

def Constant.toJson : Constant Prototype → Json
  | .str s => .tagged "Str" s.toJson
  | .table t => .tagged "Table" t.toJson
  | .child p => .tagged "Child" p.toJson
  | .int64 i => .tagged "Int64" (.int i.toInt)
  | .uint64 n => .tagged "UInt64" (.nat n.toNat)
  | .complex re im => .tagged "Complex" (.object [("re", re.toJson), ("im", im.toJson)])

/-- The objects of a pool behind those already listed, which are in reverse. -/
def objectsToJson (done : List Json) : List (Constant Prototype) → List Json
  | [] => done.reverse
  | o :: objects => objectsToJson (o.toJson :: done) objects

end

namespace Listing

/-- The file name extension of listings. -/
def extension : String := "json"

/-- How listings are laid out: indented or on one line. -/
def style (pretty : Bool) : Json.Style := if pretty then .pretty else .compact

/-- The document of a listing, without the newline that closes it. -/
def document (style : Json.Style) (p : Prototype) : String := p.toJson.render style

/-- The listing of a prototype tree. -/
def text (pretty : Bool) (p : Prototype) : String := document (style pretty) p ++ "\n"

/-! ## Writing to a sink -/

/-- Where writing stopped, with what the sink said. -/
inductive WriteError where
  | document (cause : String)
  | newline (cause : String)
deriving DecidableEq, Repr

namespace WriteError

def cause : WriteError → String
  | .document cause | .newline cause => cause

def message : WriteError → String
  | .document cause => "Serialization error: " ++ cause
  | .newline cause => "IO error: " ++ cause

end WriteError

section

variable {m : Type → Type} [Monad m]

/-- Puts a document into a sink, and then the newline that closes it. -/
def putDocument (put : Bytes → m (Except String Unit)) (document : String) :
    m (Except WriteError Unit) := do
  match ← put (Utf8.encode document) with
  | .error cause => return .error (.document cause)
  | .ok _ =>
    match ← put [0x0a] with
    | .error cause => return .error (.newline cause)
    | .ok _ => return .ok ()

/-- Puts a listing into a sink. -/
def writeTo (put : Bytes → m (Except String Unit)) (pretty : Bool) (p : Prototype) :
    m (Except WriteError Unit) :=
  putDocument put (document (style pretty) p)

end

/-- A sink that has room for so many bytes, and then says that it is full. -/
def takeRoom (bytes : Bytes) : StateM Nat (Except String Unit) := fun room =>
  if room < bytes.length then (.error "sink full", room) else (.ok (), room - bytes.length)

/-- Writes a listing to a sink of bounded room; returns how many bytes it took. -/
def write (pretty : Bool) (p : Prototype) (room : Nat) : Except WriteError Nat :=
  match (writeTo takeRoom pretty p).run room with
  | (.ok _, left) => .ok (room - left)
  | (.error e, _) => .error e

end Listing

end JitDump
