/-! Byte positions in a source text. Offsets count the bytes of the UTF-8 encoding. -/
namespace MissionTime.Text

structure Span where
  start : Nat
  stop : Nat
deriving DecidableEq

namespace Span

/-- A span that ends before it starts is empty. -/
def length (span : Span) : Nat := span.stop - span.start

def isEmpty (span : Span) : Bool := span.length == 0

def ofChar (start : Nat) (c : Char) : Span := ⟨start, start + c.utf8Size⟩

def point (start : Nat) : Span := ⟨start, start⟩

end Span

def byteLength (text : List Char) : Nat := text.foldl (fun size c => size + c.utf8Size) 0

end MissionTime.Text
