import Buildbox.Proofs.Utf8.Reading

/-! Decoding in pieces. The decoder holds an opening or nothing, and what it has given so far
followed by the reading of what it holds is the reading of all bytes so far. -/

namespace Buildbox.Utf8.StreamDecoder

def IsOpen (s : StreamDecoder) : Prop :=
  s.carry = [] ∨ Opening s.carry

theorem start_reads (b : UInt8) (bs : Bytes) :
    lossy (b :: bs) = (start b).1 ++ lossy ((start b).2.carry ++ bs) ∧ (start b).2.IsOpen := by
  unfold start
  rcases scan_singleton b with ⟨x, hs, hw⟩ | ⟨hs, ho⟩ | ⟨hs, hlead⟩
  · rw [hs]
    exact ⟨lossy_written hw bs, .inl rfl⟩
  · rw [hs]
    exact ⟨rfl, .inr ho⟩
  · rw [hs]
    exact ⟨lossy_invalid hlead bs, .inl rfl⟩

theorem feed_reads {s : StreamDecoder} (h : s.IsOpen) (b : UInt8) (bs : Bytes) :
    lossy (s.carry ++ b :: bs) = (s.feed b).1 ++ lossy ((s.feed b).2.carry ++ bs) ∧
      (s.feed b).2.IsOpen := by
  rcases h with hnil | ho
  · have hfeed : s.feed b = start b := by rw [feed, hnil]
    rw [hfeed, hnil]
    exact start_reads b bs
  · unfold feed
    split
    · next hnil => exact absurd hnil ho.ne_nil
    · rcases ho.scan_append b with ⟨x, hs, hw⟩ | ⟨hs, ho'⟩ | ⟨hs, hl⟩
      · rw [hs]
        refine ⟨?_, .inl rfl⟩
        simpa using lossy_written hw bs
      · rw [hs]
        exact ⟨by simp, .inr ho'⟩
      · rw [hs, hl]
        obtain ⟨hreads, hopen⟩ := start_reads b bs
        exact ⟨by rw [hreads, List.cons_append], hopen⟩

theorem feedAll_reads {s : StreamDecoder} (h : s.IsOpen) (bs rest : Bytes) :
    lossy (s.carry ++ bs ++ rest) = (s.feedAll bs).1 ++ lossy ((s.feedAll bs).2.carry ++ rest) ∧
      (s.feedAll bs).2.IsOpen := by
  induction bs generalizing s with
  | nil => exact ⟨by simp [feedAll], h⟩
  | cons b bs ih =>
    obtain ⟨hfeed, hopen⟩ := feed_reads h b (bs ++ rest)
    obtain ⟨hrest, hopen'⟩ := ih hopen
    refine ⟨?_, hopen'⟩
    rw [List.append_assoc, List.cons_append, hfeed, ← List.append_assoc, hrest, feedAll,
      List.append_assoc]

theorem decode_reads {s : StreamDecoder} (h : s.IsOpen) (chunk rest : Bytes) :
    lossyText (s.carry ++ chunk ++ rest) =
        (s.decode chunk).1 ++ lossyText ((s.decode chunk).2.carry ++ rest) ∧
      (s.decode chunk).2.IsOpen := by
  obtain ⟨hfeed, hopen⟩ := feedAll_reads h chunk rest
  refine ⟨?_, hopen⟩
  rw [lossyText, hfeed, String.ofList_append]
  rfl

theorem finish_reads {s : StreamDecoder} (h : s.IsOpen) : s.finish.1 = lossyText s.carry := by
  rcases h with hnil | ho
  · rw [finish, if_pos hnil, hnil]
    rfl
  · rw [finish, if_neg ho.ne_nil, lossyText, lossy_opening ho]

theorem join_decodeAll {s : StreamDecoder} (h : s.IsOpen) (chunks : List Bytes) :
    String.join (s.decodeAll chunks) = lossyText (s.carry ++ chunks.flatten) := by
  induction chunks generalizing s with
  | nil => simp [decodeAll, finish_reads h]
  | cons chunk chunks ih =>
    obtain ⟨hreads, hopen⟩ := decode_reads h chunk chunks.flatten
    rw [List.flatten_cons, ← List.append_assoc, hreads, ← ih hopen, ← String.join_cons]
    rfl

def after (chunks : List Bytes) : StreamDecoder :=
  chunks.foldl (fun s chunk => (s.decode chunk).2) {}

theorem isOpen_after (chunks : List Bytes) : (after chunks).IsOpen := by
  have key (chunks : List Bytes) (s : StreamDecoder) (h : s.IsOpen) :
      (chunks.foldl (fun s chunk => (s.decode chunk).2) s).IsOpen := by
    induction chunks generalizing s with
    | nil => exact h
    | cons chunk chunks ih => exact ih _ (decode_reads h chunk []).2
  exact key chunks {} (.inl rfl)

theorem IsOpen.pending_le {s : StreamDecoder} (h : s.IsOpen) : s.pending ≤ 3 := by
  rcases h with hnil | ho
  · simp [pending, hnil]
  · exact ho.length_le

theorem IsOpen.exists_char {s : StreamDecoder} (h : s.IsOpen) :
    ∃ x : Char, 1 < (String.utf8EncodeChar x).length ∧ s.carry <+: String.utf8EncodeChar x ∧
      s.carry ≠ String.utf8EncodeChar x := by
  rcases h with hnil | ho
  · exact ⟨replacement, by decide, hnil ▸ List.nil_prefix, hnil ▸ String.utf8EncodeChar_ne_nil.symm⟩
  · obtain ⟨hne, x, hx, hxne⟩ := opening_iff.mp ho
    refine ⟨x, ?_, hx, hxne⟩
    calc 1 ≤ s.carry.length := List.length_pos_iff.mpr hne
      _ < (String.utf8EncodeChar x).length :=
        Nat.lt_of_le_of_ne hx.length_le fun he => hxne (hx.eq_of_length he)

/-- However a byte string is cut, the texts of its pieces and of the end join to the one reading of
the whole; and what is held between the pieces is a proper start of one character. -/
theorem decodeAll_reads (chunks : List Bytes) :
    String.join (decodeAll {} chunks) = lossyText chunks.flatten ∧
    (∀ xs, Reading chunks.flatten xs ↔ String.join (decodeAll {} chunks) = String.ofList xs) ∧
    ∀ n, (after (chunks.take n)).pending ≤ 3 ∧
      ∃ x : Char, 1 < (String.utf8EncodeChar x).length ∧
        (after (chunks.take n)).carry <+: String.utf8EncodeChar x ∧
        (after (chunks.take n)).carry ≠ String.utf8EncodeChar x := by
  have hjoin : String.join (decodeAll {} chunks) = lossyText chunks.flatten :=
    join_decodeAll (s := {}) (.inl rfl) chunks
  refine ⟨hjoin, fun xs => ?_, fun n => ?_⟩
  · rw [hjoin, reading_iff, lossyText, String.ofList_inj, eq_comm]
  · exact ⟨(isOpen_after _).pending_le, (isOpen_after _).exists_char⟩

example : decodeAll {} [[0x61, 0xE2], [], [0x9A], [0xC3, 0xA9, 0xED, 0xA0], [0xF0, 0x90]] =
    ["a", "", "", "\ufffdé\ufffd\ufffd", "", "\ufffd"] := by decide

end Buildbox.Utf8.StreamDecoder
