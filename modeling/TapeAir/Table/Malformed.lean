import TapeAir.Machine.Register
import TapeAir.Table.Kind
/-! # Traces from which no rows can be derived

Only the last row of a trace may have a zero as its current instruction. A trace that breaks this
rule was padded already, and no table but the processor's can be derived from it.
-/
namespace TapeAir

structure MalformedTrace where
  kind : Kind
  row : Nat
  trace : Trace
deriving DecidableEq

/-- The memory table shows the whole trace in its message. -/
def MalformedTrace.message (m : MalformedTrace) : String :=
  let need := "유도하려면 패딩되지 않은 트레이스가 필요합니다."
  let reason := s!"{need} {m.row}번 행의 명령어가 0입니다."
  match m.kind with
  | .memory => s!"메모리 행렬을 {reason} 입력: {m.trace.text}"
  | .instruction => s!"명령어 행렬을 {reason}"
  | k => s!"{k.title} 를 {reason}"

inductive DerivationError where
  | malformed (m : MalformedTrace)
  /-- The last row reads, so the symbol is not shown. -/
  | unseenSymbol
deriving DecidableEq

namespace Trace

/-- The first row other than the last whose current instruction is zero. -/
def idleRow? (t : Trace) : Option Nat :=
  (List.dropLast t).findIdx? (·.currentInstruction = 0)

def requireUnpadded (kind : Kind) (t : Trace) : Except DerivationError Unit :=
  match t.idleRow? with
  | some row => .error (.malformed ⟨kind, row, t⟩)
  | none => .ok ()

end Trace

end TapeAir
