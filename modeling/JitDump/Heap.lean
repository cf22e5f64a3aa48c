import JitDump.Heap.StringTable

/-! # The heap of a decoder

One heap serves decodes one after another. Between them the host may start a collection cycle,
which condemns every string until something interns it again. -/

namespace JitDump

structure Heap where
  /-- The mask that was asked for, before rounding. -/
  initialMask : UInt32
  strings : Heap.StringTable

namespace Heap

def defaultMask : UInt32 := 255

def ofMask (mask : UInt32) : Heap := ⟨mask, .ofMask mask⟩

/-- A fresh heap of the default size. -/
def new : Heap := ofMask defaultMask

def intern (h : Heap) (s : Bytes) : Str × Heap :=
  let ⟨mask, strings⟩ := h
  let (str, strings) := strings.intern s
  (str, ⟨mask, strings⟩)

def beginCycle (h : Heap) : Heap := { h with strings := h.strings.condemnAll }

/-- The text of a heap in diagnostics. -/
def describe (h : Heap) : String :=
  s!"Heap \x7b config: HeapConfig \x7b initial_mask: {h.initialMask} \x7d, " ++
    s!"strings: {h.strings.describe} \x7d"

end Heap

end JitDump
