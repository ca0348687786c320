import RecordView.Command.Utf8

/-! A text that can be encoded is decoded from its bytes. -/
namespace RecordView.Command.Utf8

variable {code least most n m v : Nat} {b : UInt8} {bs : List UInt8} {l : Lead} {c : Char}

theorem toNat_byte (h : n < 256) : (UInt8.ofNat n).toNat = n := UInt8.toNat_ofNat_of_lt' h

/-- A following byte gives six bits of the character. -/
theorem follow_byte (hrange : least ≤ m % 64 + 128 ∧ m % 64 + 128 ≤ most)
    (h : follow (code * 64 + m % 64) 0x80 0xBF n bs = .ok v) :
    follow code least most (n + 1) (UInt8.ofNat (m % 64 + 128) :: bs) = .ok v := by
  rw [follow, toNat_byte (by omega), if_pos hrange, Nat.add_sub_cancel, h]
  rfl

theorem follow_end (h : code = v) : follow code least most 0 bs = .ok v := by rw [follow, h]

/-- A character is read from its first byte and those that follow. -/
theorem decodeFrom_of_follow (more : List UInt8) (hlead : lead? b.toNat = some l)
    (hmore : more.length = l.following)
    (h : follow l.bits l.least l.most l.following (more ++ bs) = .ok c.toNat) (position : Nat) :
    ∃ next, decodeFrom position (b :: more ++ bs) = (decodeFrom next bs).map (c :: ·) := by
  refine ⟨position + 1 + l.following, ?_⟩
  rw [List.cons_append, decodeFrom, hlead]
  dsimp only
  rw [h, ← hmore, List.drop_left]
  dsimp only
  rw [Char.ofNat_toNat]
  rfl

theorem decodeFrom_char (c : Char) (bs : List UInt8) (position : Nat) :
    ∃ next, decodeFrom position (String.utf8EncodeChar c ++ bs) = (decodeFrom next bs).map (c :: ·) := by
  have hvalid : c.toNat < 55296 ∨ 57343 < c.toNat ∧ c.toNat < 1114112 := c.valid
  unfold String.utf8EncodeChar
  rw [show c.val.toNat = c.toNat from rfl]
  dsimp only
  generalize hv : c.toNat = v at hvalid ⊢
  -- a character has one byte, two, three or four
  split
  · refine decodeFrom_of_follow (l := ⟨0, v, 0x80, 0xBF⟩) [] ?_ rfl (follow_end hv.symm) position
    rw [toNat_byte (by omega), lead?, if_pos (by omega)]
  split
  · refine decodeFrom_of_follow (l := ⟨1, v / 64 % 32, 0x80, 0xBF⟩) [_] ?_ rfl ?_ position
    · rw [toNat_byte (by omega), lead?, if_neg (by omega), if_neg (by omega), if_pos (by omega),
        Nat.add_sub_cancel]
    · exact follow_byte (by dsimp only; omega) (follow_end (by dsimp only; omega))
  split
  · refine decodeFrom_of_follow (l := ⟨2, v / 4096 % 16, if v / 4096 % 16 + 224 = 0xE0 then 0xA0 else 0x80,
      if v / 4096 % 16 + 224 = 0xED then 0x9F else 0xBF⟩) [_, _] ?_ rfl ?_ position
    · rw [toNat_byte (by omega), lead?, if_neg (by omega), if_neg (by omega), if_neg (by omega),
        if_pos (by omega), Nat.add_sub_cancel]
    · refine follow_byte ?_ (follow_byte (by omega) (follow_end (by dsimp only; omega)))
      dsimp only
      constructor <;> split <;> omega
  · refine decodeFrom_of_follow (l := ⟨3, v / 262144 % 8, if v / 262144 % 8 + 240 = 0xF0 then 0x90 else 0x80,
      if v / 262144 % 8 + 240 = 0xF4 then 0x8F else 0xBF⟩) [_, _, _] ?_ rfl ?_ position
    · rw [toNat_byte (by omega), lead?, if_neg (by omega), if_neg (by omega), if_neg (by omega),
        if_neg (by omega), if_pos (by omega), Nat.add_sub_cancel]
    · refine follow_byte ?_ (follow_byte (by omega) (follow_byte (by omega) (follow_end (by dsimp only; omega))))
      dsimp only
      constructor <;> split <;> omega

theorem decodeFrom_flatMap (cs : List Char) (position : Nat) :
    decodeFrom position (cs.flatMap String.utf8EncodeChar) = .ok cs := by
  induction cs generalizing position with
  | nil => rw [List.flatMap_nil, decodeFrom]
  | cons c cs ih =>
    obtain ⟨next, hnext⟩ := decodeFrom_char c (cs.flatMap String.utf8EncodeChar) position
    rw [List.flatMap_cons, hnext, ih next]
    rfl

variable {stray : Char → Option UInt8} {s : String}

theorem decode_of_encode (h : encode stray s = .ok bs) : decode bs = .ok s.toList := by
  unfold encode at h
  split at h
  · cases h
    exact decodeFrom_flatMap s.toList 0
  · cases h

/-- What is not encoded has a character that stands for a byte. -/
theorem exists_stray_of_encode {u : Unencodable} (h : encode stray s = .error u) :
    ∃ c ∈ s.toList, (stray c).isSome = true := by
  unfold encode at h
  split at h
  · cases h
  · next c cs hdrop =>
    refine ⟨c, (List.dropWhile_sublist _).mem (hdrop ▸ List.mem_cons_self), ?_⟩
    have hhead := List.head?_dropWhile_not (fun c => (stray c).isNone) s.toList
    rw [hdrop] at hhead
    simpa using hhead

end RecordView.Command.Utf8
