import Mathlib.Data.Nat.Bitwise

/-! The status words of `waitpid`, taken apart as the macros of `<sys/wait.h>` do it. -/

namespace WaitStatus

abbrev Status := BitVec 32

abbrev Signal := BitVec 32

def sigtrap : Signal := 5

def wtermsig (status : Status) : Signal := status &&& 0x7f

def wexitstatus (status : Status) : BitVec 32 := (status &&& 0xff00) >>> 8

def wstopsig (status : Status) : Signal := wexitstatus status

def wifexited (status : Status) : Bool := wtermsig status == 0

/-- `((signed char) ((status & 0x7f) + 1) >> 1) > 0` -/
def wifsignaled (status : Status) : Bool :=
  0 < ((((status &&& 0x7f) + 1).setWidth 8).sshiftRight 1).toInt

def wifstopped (status : Status) : Bool := (status &&& 0xff) == 0x7f

def highHalf (status : Status) : BitVec 32 := status.sshiftRight 16 &&& 0xffff

theorem toNat_low (status : Status) (bits : Nat) (narrow : bits < 32) :
    (status &&& BitVec.ofNat 32 (2 ^ bits - 1)).toNat = status.toNat % 2 ^ bits := by
  have small : 2 ^ bits < 2 ^ 32 := Nat.pow_lt_pow_right (by decide) narrow
  rw [BitVec.toNat_and, BitVec.toNat_ofNat, Nat.mod_eq_of_lt (by omega),
    Nat.and_two_pow_sub_one_eq_mod]

theorem wexitstatus_toNat (status : Status) :
    (wexitstatus status).toNat = status.toNat / 256 % 256 := by
  have shifted : wexitstatus status = (status >>> 8) &&& BitVec.ofNat 32 (2 ^ 8 - 1) := by
    unfold wexitstatus
    apply BitVec.eq_of_toNat_eq
    simp only [BitVec.toNat_ushiftRight, BitVec.toNat_and, Nat.shiftRight_and_distrib]
    rfl
  rw [shifted, toNat_low _ 8 (by decide), BitVec.toNat_ushiftRight, Nat.shiftRight_eq_div_pow]
  rfl

theorem highHalf_toNat (status : Status) : (highHalf status).toNat = status.toNat / 65536 := by
  have width := status.isLt
  have low := toNat_low (status.sshiftRight 16) 16 (by decide)
  change (highHalf status).toNat = _ at low
  rw [low, BitVec.toNat_sshiftRight]
  split
  · rw [Nat.shiftRight_eq_div_pow]
    omega
  · rw [Nat.shiftRight_eq_div_pow]
    omega

theorem wifstopped_iff (status : Status) : wifstopped status = true ↔ status.toNat % 256 = 127 := by
  have low := toNat_low status 8 (by decide)
  change (status &&& 0xff).toNat = _ at low
  rw [wifstopped, beq_iff_eq, ← BitVec.toNat_inj, low]
  rfl

def ended (status : Status) : Bool := wifexited status || wifsignaled status

def stoppedBy (signal : BitVec 8) (event : BitVec 16) : Status :=
  BitVec.ofNat 32 (127 + signal.toNat * 256 + event.toNat * 65536)

theorem stoppedBy_toNat (signal : BitVec 8) (event : BitVec 16) :
    (stoppedBy signal event).toNat = 127 + signal.toNat * 256 + event.toNat * 65536 := by
  have signalWidth := signal.isLt
  have eventWidth := event.isLt
  rw [stoppedBy, BitVec.toNat_ofNat]
  omega

theorem eq_stoppedBy_iff {status : Status} {signal : BitVec 8} {event : BitVec 16} :
    status = stoppedBy signal event ↔ wifstopped status = true ∧
      (wstopsig status).toNat = signal.toNat ∧ (highHalf status).toNat = event.toNat := by
  have width := status.isLt
  have signalWidth := signal.isLt
  have eventWidth := event.isLt
  rw [← BitVec.toNat_inj, stoppedBy_toNat, wifstopped_iff, wstopsig, wexitstatus_toNat,
    highHalf_toNat]
  omega

end WaitStatus
