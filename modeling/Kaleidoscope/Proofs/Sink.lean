import Kaleidoscope.Sink

/-!
# What sinks hold

A sink holds the bytes of the pieces that were written on it, as far as there was room for them.
-/

namespace Kaleidoscope

theorem extract_of_size_le {bytes : ByteArray} {n : Nat} (fits : bytes.size ≤ n) :
    bytes.extract 0 n = bytes := by
  rw [← Nat.max_eq_left fits, ByteArray.extract_zero_max_size]

theorem toUTF8_join_cons (piece : String) (pieces : List String) :
    (String.join (piece :: pieces)).toUTF8 = piece.toUTF8 ++ (String.join pieces).toUTF8 := by
  rw [String.join_cons]
  exact String.toByteArray_append

namespace Sink

/-- What fits of the pieces is written, and that is all there is to write or all that there is room for. -/
theorem writeAll_limited (pieces : List String) (written : ByteArray) (room : Nat) :
    (writeAll ⟨written, some room⟩ pieces).1 = decide ((String.join pieces).toUTF8.size ≤ room) ∧
      (writeAll ⟨written, some room⟩ pieces).2.written =
        written ++ (String.join pieces).toUTF8.extract 0 room := by
  induction pieces generalizing written room with
  | nil => simp [writeAll, extract_of_size_le]
  | cons piece pieces ih =>
    rw [toUTF8_join_cons, ByteArray.size_append, ByteArray.extract_append, Nat.zero_sub]
    unfold writeAll write
    by_cases fits : piece.toUTF8.size ≤ room
    · simp only [if_pos fits]
      obtain ⟨done, left⟩ := ih (written ++ piece.toUTF8) (room - piece.toUTF8.size)
      rw [done, left, extract_of_size_le fits, ByteArray.append_assoc]
      refine ⟨?_, rfl⟩
      rw [decide_eq_decide]
      omega
    · simp only [if_neg fits]
      have spent : room - piece.toUTF8.size = 0 := by omega
      refine ⟨?_, ?_⟩
      · symm
        rw [decide_eq_false_iff_not]
        omega
      · rw [spent, ByteArray.extract_same, ByteArray.append_empty]

theorem writeAll_cons (s : Sink) (piece : String) (pieces : List String) :
    s.writeAll (piece :: pieces) =
      if (s.write piece).1 then (s.write piece).2.writeAll pieces else (false, (s.write piece).2) := by
  unfold writeAll
  generalize s.write piece = written
  obtain ⟨fits, s'⟩ := written
  cases fits
  · rfl
  · cases pieces <;> rfl

theorem writeAll_unlimited (pieces : List String) (written : ByteArray) :
    writeAll ⟨written, none⟩ pieces = (true, ⟨written ++ (String.join pieces).toUTF8, none⟩) := by
  induction pieces generalizing written with
  | nil => simp [writeAll]
  | cons piece pieces ih =>
    rw [toUTF8_join_cons, ← ByteArray.append_assoc]
    exact ih (written ++ piece.toUTF8)

end Sink

end Kaleidoscope
