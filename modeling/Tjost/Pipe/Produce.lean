import Tjost.Platform

/-!
# Records in a ring

A pipe (`tjost_pipe.c`) and the transmit ring of the network modules carry
events as records: the image of the `Tjost_Event`, then the payload.
`pipeProduce` is `tjost_pipe_produce` as one call. It either appends a whole
record or changes nothing (`pipeProduce_of_fits`, `pipeProduce_of_full`); its two
other error returns are never taken.
-/

namespace Tjost

/-- The bytes of a record. -/
def Stale.record (stale : Stale) (module : ModulePtr) (time : NFrames) (buf : List UInt8) :
    List UInt8 :=
  (stale.header module time buf.length).encode ++ buf

variable {ρ : Type} (R : ByteRing ρ ringbufSize)

/-- `tjost_pipe_produce`. -/
def pipeProduce (stale : Stale) (pipe : ρ) (module : ModulePtr) (time : NFrames)
    (buf : List UInt8) : ρ × ℤ :=
  if R.writeSpace pipe < sizeofEvent + buf.length then (pipe, -1)
  else
    let (pipe, n) := R.write pipe (stale.header module time buf.length).encode
    if n ≠ sizeofEvent then (pipe, -1)
    else
      let (pipe, n) := R.write pipe buf
      if n ≠ buf.length then (pipe, -1) else (pipe, 0)

variable {R} {stale : Stale} {pipe : ρ} {module : ModulePtr} {time : NFrames} {buf : List UInt8}

theorem pipeProduce_of_full (h : R.writeSpace pipe < sizeofEvent + buf.length) :
    pipeProduce R stale pipe module time buf = (pipe, -1) := by
  unfold pipeProduce
  rw [if_pos h]

variable (stale module time) in
/-- Where there is room for the record, both writes are complete. -/
theorem pipeProduce_of_fits (h : sizeofEvent + buf.length ≤ R.writeSpace pipe) :
    (pipeProduce R stale pipe module time buf).2 = 0 ∧
      R.contents (pipeProduce R stale pipe module time buf).1 =
        R.contents pipe ++ stale.record module time buf := by
  have hlen : (stale.header module time buf.length).encode.length + buf.length ≤
      R.writeSpace pipe := by
    rwa [EventHeader.length_encode]
  have hhdr := R.write_count_of_fits (r := pipe) (Nat.le_trans (Nat.le_add_right _ _) hlen)
  have hbuf := R.fits_after_write hlen
  have hcount := R.write_count_of_fits hbuf
  rw [EventHeader.length_encode] at hhdr
  unfold pipeProduce
  rw [if_neg (by omega)]
  simp only [hhdr, hcount, ne_eq, not_true_eq_false, if_false]
  refine ⟨trivial, ?_⟩
  rw [R.contents_write_of_fits hbuf,
    R.contents_write_of_fits (Nat.le_trans (Nat.le_add_right _ _) hlen), List.append_assoc]
  rfl

end Tjost
