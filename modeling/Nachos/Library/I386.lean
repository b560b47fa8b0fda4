import Mathlib.Algebra.Group.Int.Defs
import Mathlib.Logic.Function.Basic

/-! # A fragment of the 80386

Moves, the stack, and calls through a register. Memory is read and written in
words, at the addresses of words, and addresses do not wrap around. Code is run
from its first instruction to its last one; the program counter is where an
instruction that transfers control goes.
-/

namespace Nachos.I386

open Function

inductive Reg | eax | ebx | ecx | edx | ebp | esi | edi | esp
  deriving DecidableEq

inductive Operand
  | reg (r : Reg)
  /-- `offset(%base)`. -/
  | mem (offset : ℤ) (base : Reg)
  /-- A word of static storage. -/
  | static (address : ℤ)

inductive Instr
  | movl (src dst : Operand)
  | pushl (src : Operand)
  /-- `call *%r`, in front of the instruction at `next`. -/
  | call (r : Reg) (next : ℤ)
  | ret

structure Cpu where
  reg : Reg → ℤ
  mem : ℤ → ℤ
  pc : ℤ

namespace Cpu

def read (s : Cpu) : Operand → ℤ
  | .reg r => s.reg r
  | .mem offset base => s.mem (s.reg base + offset)
  | .static address => s.mem address

def write (s : Cpu) (x : ℤ) : Operand → Cpu
  | .reg r => { s with reg := update s.reg r x }
  | .mem offset base => { s with mem := update s.mem (s.reg base + offset) x }
  | .static address => { s with mem := update s.mem address x }

def push (x : ℤ) (s : Cpu) : Cpu :=
  { s with
    reg := update s.reg .esp (s.reg .esp - 4)
    mem := update s.mem (s.reg .esp - 4) x }

def enter (target next : ℤ) (s : Cpu) : Cpu := { s.push next with pc := target }

def exec (s : Cpu) : Instr → Cpu
  | .movl src dst => s.write (s.read src) dst
  | .pushl src => s.push (s.read src)
  | .call r next => s.enter (s.reg r) next
  | .ret => { s with reg := update s.reg .esp (s.reg .esp + 4), pc := s.mem (s.reg .esp) }

section Enter

variable {s : Cpu} {target next : ℤ}

theorem reg_enter_esp : (s.enter target next).reg .esp = s.reg .esp - 4 := by
  simp [enter, push]

theorem reg_enter_of_ne {r : Reg} (h : r ≠ .esp) : (s.enter target next).reg r = s.reg r :=
  update_of_ne h ..

theorem mem_enter_of_ne {a : ℤ} (h : a ≠ s.reg .esp - 4) :
    (s.enter target next).mem a = s.mem a :=
  update_of_ne h ..

end Enter

def run (s : Cpu) (code : List Instr) : Cpu := code.foldl exec s

theorem run_append {s : Cpu} {code code' : List Instr} :
    s.run (code ++ code') = (s.run code).run code' :=
  List.foldl_append

/-- Code with calls: the states at the entries of the procedures, of which `body` is what they do
up to their return. -/
def calls (body : Cpu → Cpu) (s : Cpu) : List Instr → List Cpu
  | [] => []
  | .call r next :: code =>
    let entry := s.enter (s.reg r) next
    entry :: calls body (body entry) code
  | i :: code => calls body (s.exec i) code

/-- The calling convention: a procedure with `n` words of arguments returns, and keeps some
registers and the words of the caller up to `top`. -/
structure Returns (n top : ℤ) (entry s : Cpu) : Prop where
  pc : s.pc = entry.mem (entry.reg .esp)
  esp : s.reg .esp = entry.reg .esp + 4
  saved : ∀ r ∈ [Reg.ebx, .ebp, .esi, .edi], s.reg r = entry.reg r
  frame : ∀ a, entry.reg .esp + 4 + 4 * n ≤ a → a < top → s.mem a = entry.mem a

end Cpu

/-! ## Registers in memory -/

def storeRegs (base : Reg) (offset : Reg → ℤ) (rs : List Reg) : List Instr :=
  rs.map fun r => .movl (.reg r) (.mem (offset r) base)

def loadRegs (base : Reg) (offset : Reg → ℤ) (rs : List Reg) : List Instr :=
  rs.map fun r => .movl (.mem (offset r) base) (.reg r)

variable {s : Cpu} {base r : Reg} {offset : Reg → ℤ} {rs : List Reg} {a : ℤ}

theorem run_storeRegs_cons : s.run (storeRegs base offset (r :: rs)) =
    (s.write (s.reg r) (.mem (offset r) base)).run (storeRegs base offset rs) :=
  rfl

theorem run_loadRegs_cons : s.run (loadRegs base offset (r :: rs)) =
    (s.write (s.mem (s.reg base + offset r)) (.reg r)).run (loadRegs base offset rs) :=
  rfl

theorem reg_run_storeRegs : (s.run (storeRegs base offset rs)).reg = s.reg := by
  induction rs generalizing s with
  | nil => rfl
  | cons r rs ih => exact ih

theorem mem_run_storeRegs_of_ne (h : ∀ r ∈ rs, a ≠ s.reg base + offset r) :
    (s.run (storeRegs base offset rs)).mem a = s.mem a := by
  induction rs generalizing s with
  | nil => rfl
  | cons r rs ih =>
    have hrest : ∀ r ∈ rs, a ≠ s.reg base + offset r :=
      fun r hr => h r (List.mem_cons_of_mem _ hr)
    rw [run_storeRegs_cons, ih]
    · exact update_of_ne (h r List.mem_cons_self) ..
    · exact hrest

theorem mem_run_storeRegs (hinj : Injective offset) (hr : r ∈ rs) :
    (s.run (storeRegs base offset rs)).mem (s.reg base + offset r) = s.reg r := by
  induction rs generalizing s with
  | nil => cases hr
  | cons r' rs ih =>
    by_cases hmem : r ∈ rs
    · exact ih hmem
    · -- the last one that is stored there
      obtain rfl : r = r' := (List.mem_cons.mp hr).resolve_right hmem
      have hlast : ∀ r' ∈ rs, s.reg base + offset r ≠ s.reg base + offset r' := by
        intro r' hr' heq
        obtain rfl := hinj (Int.add_left_cancel heq)
        exact hmem hr'
      rw [run_storeRegs_cons, mem_run_storeRegs_of_ne]
      · exact update_self ..
      · exact hlast

theorem mem_run_loadRegs : (s.run (loadRegs base offset rs)).mem = s.mem := by
  induction rs generalizing s with
  | nil => rfl
  | cons r rs ih => exact ih

theorem reg_run_loadRegs_of_notMem (h : r ∉ rs) :
    (s.run (loadRegs base offset rs)).reg r = s.reg r := by
  induction rs generalizing s with
  | nil => rfl
  | cons r' rs ih =>
    rw [List.mem_cons, not_or] at h
    rw [run_loadRegs_cons, ih h.2]
    exact update_of_ne h.1 ..

theorem reg_run_loadRegs (hbase : base ∉ rs) (hr : r ∈ rs) :
    (s.run (loadRegs base offset rs)).reg r = s.mem (s.reg base + offset r) := by
  induction rs generalizing s with
  | nil => cases hr
  | cons r' rs ih =>
    rw [List.mem_cons, not_or] at hbase
    by_cases hmem : r ∈ rs
    · rw [run_loadRegs_cons, ih hbase.2 hmem]
      exact congrArg (fun x => s.mem (x + offset r)) (update_of_ne hbase.1 ..)
    · obtain rfl : r = r' := (List.mem_cons.mp hr).resolve_right hmem
      rw [run_loadRegs_cons, reg_run_loadRegs_of_notMem hmem]
      exact update_self ..

end Nachos.I386
