import Sniper.Timing.RobTimer

/-! # Issue ports

`RobContentionNehalem`, `RobContentionCortexA53` and `RobContentionCortexA72`: the ports taken
and the slots used in the current cycle, and until when each of the units that are not pipelined
is in use. The classes of the micro-ops are those of the decoder, which is a parameter;
`RobContentionBoomV1` is left out.
-/
namespace Sniper.Timing.Ports

variable {Reg : Type}

/-- `CoreModel`, as far as the issue ports use it: what `getPort` and `getAlu` find in a
micro-op, and `getAluLatency`. -/
structure CoreModel (Reg Port Alu : Type) where
  getPort : DynamicMicroOp Reg → Port
  getAlu : DynamicMicroOp Reg → Alu
  getAluLatency : MicroOp Reg → Nat

/-! ### Nehalem -/

namespace Nehalem

inductive UopPort where
  | PORT0
  | PORT1
  | PORT2
  | PORT34
  | PORT5
  | PORT05
  | PORT015
  deriving DecidableEq

inductive UopAlu where
  | NONE
  | TRIG
  deriving DecidableEq

structure RobContentionNehalem where
  m_now : Nat
  period : Nat
  ports : UopPort → Bool
  ports_generic : Nat
  ports_generic05 : Nat
  alu_used_until : UopAlu → Nat

namespace RobContentionNehalem
variable (s : RobContentionNehalem)

def initCycle (now : Nat) : RobContentionNehalem :=
  { s with
    m_now := now
    ports := fun _ => false
    ports_generic := 0
    ports_generic05 := 0 }

/-- The port contention of `tryIssue`: the ports that a micro-op takes. -/
def takePort (uop_port : UopPort) : Option RobContentionNehalem :=
  match uop_port with
  | .PORT015 =>
    if 3 ≤ s.ports_generic then none else some { s with ports_generic := s.ports_generic + 1 }
  | .PORT05 =>
    if 2 ≤ s.ports_generic05 then none
    else some { s with ports_generic05 := s.ports_generic05 + 1 }
  | .PORT2 | .PORT34 =>
    if s.ports uop_port then none
    else some { s with ports := Function.update s.ports uop_port true }
  | .PORT0 | .PORT1 | .PORT5 =>
    if s.ports uop_port then none
    else if 3 ≤ s.ports_generic then none
    else if uop_port ≠ .PORT1 ∧ 2 ≤ s.ports_generic05 then none
    else some { s with
      ports := Function.update s.ports uop_port true
      ports_generic := s.ports_generic + 1
      ports_generic05 :=
        if uop_port ≠ .PORT1 then s.ports_generic05 + 1 else s.ports_generic05 }

/-- The ALU contention. -/
def aluBusy (alu : UopAlu) : Bool := alu ≠ .NONE && decide (s.m_now < s.alu_used_until alu)

def tryIssue (uop_port : UopPort) (alu : UopAlu) : Bool × RobContentionNehalem :=
  match s.takePort uop_port with
  | none => (false, s)
  | some s' => (!s'.aluBusy alu, s')

def doIssue (alu : UopAlu) (latency : Nat) : RobContentionNehalem :=
  if alu ≠ .NONE then
    { s with alu_used_until :=
        Function.update s.alu_used_until alu (s.m_now + latency * s.period) }
  else s

def noMore : Bool := s.ports .PORT2 && s.ports .PORT34 && decide (3 ≤ s.ports_generic)

/-- As the timers use it. -/
def model (core : CoreModel Reg UopPort UopAlu) : Rob.RobContention Reg RobContentionNehalem where
  initCycle := initCycle
  tryIssue s uop := s.tryIssue (core.getPort uop) (core.getAlu uop)
  noMore := noMore
  doIssue s uop := s.doIssue (core.getAlu uop) (core.getAluLatency uop.m_uop)

end RobContentionNehalem
end Nehalem

/-! ### Cortex-A53 -/

namespace CortexA53

inductive UopPort where
  | PORT0
  | PORT0_12
  | PORT1
  | PORT2
  | PORT12
  | PORT3
  | PORT4
  | PORT34
  | PORT5
  | PORT5_12

inductive UopAlu where
  | NONE
  | DIV
  | MUL
  | FPNEON0
  | FPNEON1
  deriving DecidableEq

inductive UopIssueSlot where
  | SLOT_00
  | SLOT_01
  | SLOT_10
  | SLOT_11

structure RobContentionCortexA53 where
  m_now : Nat
  period : Nat
  port_branch : Bool
  port_simd0 : Bool
  port_simd1 : Bool
  port_integer0 : Bool
  port_integer1 : Bool
  port_ldst : Bool
  slot0 : Bool
  slot1 : Bool
  alu_used_until : UopAlu → Nat

namespace RobContentionCortexA53
variable (s : RobContentionCortexA53)

def initCycle (now : Nat) : RobContentionCortexA53 :=
  { s with
    m_now := now
    port_branch := false
    port_simd0 := false
    port_simd1 := false
    port_integer0 := false
    port_integer1 := false
    port_ldst := false
    slot0 := false
    slot1 := false }

/-- Where the first port is free it is taken, whether the second one is free or not. -/
def issueIntegerPorts : RobContentionCortexA53 × UopAlu :=
  if s.port_integer0 then ({ s with port_integer1 := true }, .DIV)
  else ({ s with port_integer0 := true }, .MUL)

/-- Likewise. -/
def issueNEONPorts : RobContentionCortexA53 × UopAlu :=
  if s.port_simd0 then ({ s with port_simd1 := true }, .FPNEON1)
  else ({ s with port_simd0 := true }, .FPNEON0)

/-- The slot of a micro-op; one that issues alone takes both. -/
def takeSlot (uop_issue_slot : UopIssueSlot) : Option RobContentionCortexA53 :=
  match uop_issue_slot with
  | .SLOT_00 =>
    if s.slot0 || s.slot1 then none else some { s with slot0 := true, slot1 := true }
  | .SLOT_01 => if s.slot0 then none else some { s with slot0 := true }
  | .SLOT_10 => if s.slot1 then none else some { s with slot1 := true }
  | .SLOT_11 =>
    if s.slot0 && s.slot1 then none
    else if s.slot0 then some { s with slot1 := true }
    else some { s with slot0 := true }

/-- The port contention, with the unit that the port leads to. -/
def takePort (uop_port : UopPort) : Option (RobContentionCortexA53 × UopAlu) :=
  match uop_port with
  | .PORT0 => if s.port_branch then none else some ({ s with port_branch := true }, .NONE)
  | .PORT0_12 =>
    if s.port_branch || s.port_integer0 && s.port_integer1 then none
    else some { s with port_branch := true }.issueIntegerPorts
  | .PORT12 => if s.port_integer0 && s.port_integer1 then none else some s.issueIntegerPorts
  | .PORT3 => if s.port_simd0 then none else some ({ s with port_simd0 := true }, .FPNEON0)
  | .PORT4 => if s.port_simd1 then none else some ({ s with port_simd1 := true }, .FPNEON1)
  | .PORT34 => if s.port_simd0 && s.port_simd1 then none else some s.issueNEONPorts
  | .PORT5 => if s.port_ldst then none else some ({ s with port_ldst := true }, .NONE)
  | .PORT1 => if s.port_integer0 then none else some ({ s with port_integer0 := true }, .MUL)
  | .PORT2 => if s.port_integer1 then none else some ({ s with port_integer1 := true }, .DIV)
  | .PORT5_12 =>
    if s.port_ldst || s.port_integer0 && s.port_integer1 then none
    else some { s with port_ldst := true }.issueIntegerPorts

/-- The slot and the port. -/
def take (uop_port : UopPort) (uop_issue_slot : UopIssueSlot) :
    Option (RobContentionCortexA53 × UopAlu) :=
  (s.takeSlot uop_issue_slot).bind (·.takePort uop_port)

def aluBusy (alu : UopAlu) : Bool := alu ≠ .NONE && decide (s.m_now < s.alu_used_until alu)

/-- Where there is no port, the slots are set back. -/
def tryIssue (uop_port : UopPort) (uop_issue_slot : UopIssueSlot) (aluLatency : Nat) :
    Bool × RobContentionCortexA53 :=
  match s.takeSlot uop_issue_slot with
  | none => (false, s)
  | some s₁ =>
    match s₁.takePort uop_port with
    | none => (false, { s₁ with slot0 := s.slot0, slot1 := s.slot1 })
    | some (s₂, alu) =>
      if s₂.aluBusy alu then (false, s₂)
      else if alu ≠ .NONE ∧ 0 < aluLatency then
        (true, { s₂ with alu_used_until :=
            Function.update s₂.alu_used_until alu (s₂.m_now + aluLatency * s₂.period) })
      else (true, s₂)

/-- As the timers use it; `doIssue` does nothing, and `getAlu` is not asked. -/
def model (core : CoreModel Reg UopPort UopAlu) (getIssueSlot : DynamicMicroOp Reg → UopIssueSlot) :
    Rob.RobContention Reg RobContentionCortexA53 where
  initCycle := initCycle
  tryIssue s uop :=
    s.tryIssue (core.getPort uop) (getIssueSlot uop) (core.getAluLatency uop.m_uop)
  noMore _ := false
  doIssue s _ := s

end RobContentionCortexA53
end CortexA53

/-! ### Cortex-A72 -/

namespace CortexA72

inductive UopPort where
  | PORT0
  | PORT0_12
  | PORT12
  | PORT3
  | PORT12_3
  | PORT4
  | PORT5
  | PORT6
  | PORT7
  | PORT6_12
  | PORT7_12

inductive UopAlu where
  | NONE
  | MULDIV
  deriving DecidableEq

structure RobContentionCortexA72 where
  m_now : Nat
  period : Nat
  port_branch : Bool
  port_simd0 : Bool
  port_simd1 : Bool
  port_int_multi : Bool
  port_ld : Bool
  port_st : Bool
  ports_integer : Nat
  alu_used_until : UopAlu → Nat

namespace RobContentionCortexA72
variable (s : RobContentionCortexA72)

def initCycle (now : Nat) : RobContentionCortexA72 :=
  { s with
    m_now := now
    port_branch := false
    port_simd0 := false
    port_simd1 := false
    port_int_multi := false
    port_ld := false
    port_st := false
    ports_integer := 0 }

/-- The port contention of `tryIssue`. -/
def takePort (uop_port : UopPort) : Option RobContentionCortexA72 :=
  match uop_port with
  | .PORT0 => if s.port_branch then none else some { s with port_branch := true }
  | .PORT0_12 =>
    if s.port_branch || decide (2 ≤ s.ports_integer) then none
    else some { s with port_branch := true, ports_integer := s.ports_integer + 1 }
  | .PORT12 =>
    if 2 ≤ s.ports_integer then none else some { s with ports_integer := s.ports_integer + 1 }
  | .PORT3 => if s.port_int_multi then none else some { s with port_int_multi := true }
  | .PORT12_3 =>
    if s.port_int_multi || decide (2 ≤ s.ports_integer) then none
    else some { s with port_int_multi := true, ports_integer := s.ports_integer + 1 }
  | .PORT4 =>
    if s.port_simd0 && s.port_simd1 then none
    else if s.port_simd0 then some { s with port_simd1 := true }
    else some { s with port_simd0 := true }
  | .PORT5 =>
    if s.port_simd1 && s.port_simd0 then none
    else if s.port_simd1 then some { s with port_simd0 := true }
    else some { s with port_simd1 := true }
  | .PORT6 => if s.port_ld then none else some { s with port_ld := true }
  | .PORT6_12 =>
    if s.port_ld || decide (2 ≤ s.ports_integer) then none
    else some { s with port_ld := true, ports_integer := s.ports_integer + 1 }
  | .PORT7 => if s.port_st then none else some { s with port_st := true }
  | .PORT7_12 =>
    if s.port_st || decide (2 ≤ s.ports_integer) then none
    else some { s with port_st := true, ports_integer := s.ports_integer + 1 }

def aluBusy (alu : UopAlu) : Bool := alu ≠ .NONE && decide (s.m_now < s.alu_used_until alu)

def tryIssue (uop_port : UopPort) (alu : UopAlu) : Bool × RobContentionCortexA72 :=
  match s.takePort uop_port with
  | none => (false, s)
  | some s' => (!s'.aluBusy alu, s')

def doIssue (alu : UopAlu) (latency : Nat) : RobContentionCortexA72 :=
  if alu ≠ .NONE then
    { s with alu_used_until :=
        Function.update s.alu_used_until alu (s.m_now + latency * s.period) }
  else s

/-- As the timers use it. -/
def model (core : CoreModel Reg UopPort UopAlu) : Rob.RobContention Reg RobContentionCortexA72 where
  initCycle := initCycle
  tryIssue s uop := s.tryIssue (core.getPort uop) (core.getAlu uop)
  noMore _ := false
  doIssue s uop := s.doIssue (core.getAlu uop) (core.getAluLatency uop.m_uop)

end RobContentionCortexA72
end CortexA72
end Sniper.Timing.Ports
