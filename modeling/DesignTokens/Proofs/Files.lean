import DesignTokens.Files
import DesignTokens.Proofs.SortedMap

/-!
# Files that are written

* `locate_insert`, `isDirectory_insert_path` : with one more file every path leads to where it led
  before, and the place of the file is no directory;
* `write?_eq_ok` : what a write needs, and what the files are afterwards;
* `get?_of_write?` : a write changes the file at one place only;
* `read_of_write?` : the text that was written is read back.
-/

namespace DesignTokens.Files

variable {fs after : Files} {p q : Place} {path text key : String} {bytes : ByteArray}

/-! ## One more file -/

/-- What is in a directory keeps it there. -/
theorem isDirectory_insert (h : fs.isDirectory q = true) (key : String) (bytes : ByteArray) :
    isDirectory (fs.insert key bytes) q = true := by
  rw [isDirectory, Bool.or_eq_true, List.any_eq_true] at h ⊢
  exact h.imp_right fun ⟨k, hk, hinside⟩ => ⟨k, fs.mem_keys_insert.2 (.inr hk), hinside⟩

/-- No file is inside of itself. -/
theorem isDirectory_insert_path (h : fs.isDirectory p = false) (bytes : ByteArray) :
    isDirectory (fs.insert p.path bytes) p = false := by
  rw [isDirectory, Bool.or_eq_false_iff, List.any_eq_false] at h ⊢
  refine ⟨h.1, fun k hk => ?_⟩
  rcases fs.mem_keys_insert.1 hk with rfl | hk
  · rw [Text.stripStart?]
    split
    · rename_i hprefix
      have hlength := (List.isPrefixOf_iff_prefix.1 hprefix).length_le
      rw [List.length_append, List.length_singleton] at hlength
      omega
    · simp
  · exact h.2 k hk

theorem walk_insert {names : List String} (h : walk fs q names = .ok p) (key : String)
    (bytes : ByteArray) : walk (fs.insert key bytes) q names = .ok p := by
  induction names generalizing q with
  | nil => exact h
  | cons name names ih =>
    rw [walk] at h ⊢
    split at h
    · rename_i hdirectory
      rw [if_pos (isDirectory_insert hdirectory key bytes)]
      split at h
      · cases h
      · rename_i hlength
        rw [if_neg hlength]
        exact ih h
    · split at h <;> cases h

theorem locate_insert (h : fs.locate path = .ok p) (key : String) (bytes : ByteArray) :
    locate (fs.insert key bytes) path = .ok p := by
  rw [locate] at h ⊢
  split at h
  · cases h
  · rename_i hempty
    rw [if_neg hempty]
    split at h
    · cases h
    · rename_i hlength
      rw [if_neg hlength]
      exact walk_insert h key bytes

/-! ## Reading and writing -/

theorem read_eq_ok : fs.read path = .ok text ↔ ∃ p bytes, fs.locate path = .ok p ∧
    fs.isDirectory p = false ∧ fs.bytes? p = some bytes ∧ String.fromUTF8? bytes = some text := by
  unfold read
  cases fs.locate path with
  | error e => simp [bind, Except.bind]
  | ok p =>
    cases hdirectory : fs.isDirectory p with
    | true => simp [bind, Except.bind, throw, throwThe, MonadExceptOf.throw, hdirectory]
    | false =>
      cases hbytes : fs.bytes? p with
      | none => simp [bind, Except.bind, throw, throwThe, MonadExceptOf.throw, hdirectory, hbytes]
      | some bytes =>
        cases htext : String.fromUTF8? bytes with
        | none =>
          simp [bind, Except.bind, throw, throwThe, MonadExceptOf.throw, hdirectory, hbytes, htext]
        | some s => simp [bind, Except.bind, pure, Except.pure, hdirectory, hbytes, htext]

theorem write?_eq_ok : fs.write? path text = .ok after ↔ ∃ p, fs.locate path = .ok p ∧
    fs.isDirectory p = false ∧
      after = if p = Place.emptyDevice then fs else fs.insert p.path text.toUTF8 := by
  unfold write?
  cases fs.locate path with
  | error e => simp [bind, Except.bind]
  | ok p =>
    cases hdirectory : fs.isDirectory p with
    | true => simp [bind, Except.bind, throw, throwThe, MonadExceptOf.throw, hdirectory]
    | false => simp [bind, Except.bind, pure, Except.pure, hdirectory, @eq_comm _ _ after]

theorem fromUTF8?_toUTF8 (s : String) : String.fromUTF8? s.toUTF8 = some s := by
  unfold String.fromUTF8?
  exact dif_pos s.isValidUTF8

/-- A write changes the file at one place only. -/
theorem get?_of_write? (hwrite : fs.write? path text = .ok after) (hlocate : fs.locate path = .ok p)
    (hkey : key ≠ p.path) : after.get? key = fs.get? key := by
  obtain ⟨p', hlocate', -, rfl⟩ := write?_eq_ok.1 hwrite
  obtain rfl : p' = p := by simpa [hlocate] using hlocate'.symm
  split
  · rfl
  · exact fs.get?_insert_of_ne _ hkey

/-- The text that was written is read back, unless it went to the empty device. -/
theorem read_of_write? (hwrite : fs.write? path text = .ok after) (hlocate : fs.locate path = .ok p)
    (hp : p ≠ Place.emptyDevice) : after.read path = .ok text := by
  obtain ⟨p', hlocate', hdirectory, rfl⟩ := write?_eq_ok.1 hwrite
  obtain rfl : p' = p := by simpa [hlocate] using hlocate'.symm
  rw [if_neg hp]
  refine read_eq_ok.2 ⟨p', text.toUTF8, locate_insert hlocate _ _, isDirectory_insert_path hdirectory _,
    ?_, fromUTF8?_toUTF8 text⟩
  rw [bytes?, if_neg hp, fs.get?_insert_self]

end DesignTokens.Files
