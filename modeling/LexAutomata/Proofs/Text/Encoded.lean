import Mathlib.Data.List.Basic

namespace LexAutomata.Text

/-- The bytes are taken off from the front, the last one taken is put first. -/
theorem toList_loop (bytes : ByteArray) (i : Nat) (taken : List UInt8) :
    ByteArray.toList.loop bytes i taken = taken.reverse ++ bytes.data.toList.drop i := by
  induction i, taken using ByteArray.toList.loop.induct bytes with
  | case1 i taken hlt ih =>
    have hi : i < bytes.data.toList.length := hlt
    have hget : bytes.get! i = bytes.data.toList[i] := by
      rw [Array.getElem_toList]
      exact getElem!_pos bytes.data i hlt
    rw [ByteArray.toList.loop,if_pos hlt,ih,List.drop_eq_getElem_cons hi,hget,List.reverse_cons,
      List.append_assoc]
    rfl
  | case2 i taken hge =>
    have hlength : bytes.data.toList.length ≤ i := Nat.le_of_not_lt hge
    rw [ByteArray.toList.loop,if_neg hge,List.drop_eq_nil_of_le hlength,List.append_nil]

theorem toList_toUTF8 (cs : List Char) :
    (String.ofList cs).toUTF8.toList = cs.flatMap String.utf8EncodeChar := by
  have hbytes : (String.ofList cs).toUTF8 = (cs.flatMap String.utf8EncodeChar).toByteArray := rfl
  rw [hbytes,ByteArray.toList,toList_loop,List.data_toByteArray]
  rfl

theorem length_toList_toUTF8 (text : String) : text.toUTF8.toList.length = text.utf8ByteSize := by
  rw [ByteArray.toList,toList_loop]
  rfl

theorem utf8EncodeChar_ofUInt8 {b : UInt8} (h : b < 0x80) :
    String.utf8EncodeChar (Char.ofUInt8 b) = [b] := by
  have hval : (Char.ofUInt8 b).val.toNat = b.toNat := UInt8.toNat_toUInt32 b
  have hsmall : b.toNat ≤ 127 := Nat.le_of_lt_succ h
  rw [String.utf8EncodeChar,hval,if_pos hsmall]
  simp

theorem toList_toUTF8_of_ascii {bytes : List UInt8} (h : ∀ b ∈ bytes, b < 0x80) :
    (String.ofList (bytes.map Char.ofUInt8)).toUTF8.toList = bytes := by
  rw [toList_toUTF8]
  induction bytes with
  | nil => rfl
  | cons b bytes ih =>
    obtain ⟨hb,hbytes⟩ := List.forall_mem_cons.mp h
    rw [List.map_cons,List.flatMap_cons,utf8EncodeChar_ofUInt8 hb,ih hbytes]
    rfl

end LexAutomata.Text
