import DryDb.Model.FileSink
import DryDb.Writer.Pages
/-!
# The bytes of the output file

`FileSink.Refines f s` says that the buffered file and the spooled directory of `f` come to
the file and the directory of the sink `s`. Every operation keeps this, so that everything
proved about a `PageSink` holds of the file on disk, whatever the buffer held back and
whenever the directory spilled.
-/

namespace DryDb

open List

/-! ## Buffered output -/

namespace BufWriter

/-- Everything written so far. -/
def contents (w : BufWriter) : Bytes := w.file ++ w.buffer

/-- The file is being appended to. -/
def AtEnd (w : BufWriter) : Prop := w.cursor = w.file.length

variable {w : BufWriter}

theorem fileWrite_atEnd (h : w.AtEnd) (bytes : Bytes) :
    (w.fileWrite bytes).file = w.file ++ bytes ∧ (w.fileWrite bytes).AtEnd := by
  have hfile : (w.fileWrite bytes).file = w.file ++ bytes := by
    unfold fileWrite
    rw [show w.cursor = w.file.length from h]
    exact overwrite_end w.file bytes
  refine ⟨hfile, ?_⟩
  unfold AtEnd
  rw [hfile, length_append]
  exact congrArg (· + bytes.length) h

theorem flush_atEnd (h : w.AtEnd) : w.flush.file = w.contents ∧ w.flush.buffer = [] ∧ w.flush.AtEnd := by
  obtain ⟨hfile, hend⟩ := fileWrite_atEnd h w.buffer
  exact ⟨hfile, rfl, hend⟩

theorem writeAll_atEnd (h : w.AtEnd) (bytes : Bytes) :
    (w.writeAll bytes).contents = w.contents ++ bytes ∧ (w.writeAll bytes).AtEnd := by
  obtain ⟨hfile, hbuffer, hend⟩ := flush_atEnd h
  unfold writeAll
  by_cases hroom : capacity - w.buffer.length < bytes.length
  · rw [if_pos hroom]
    by_cases hbig : capacity ≤ bytes.length
    · rw [if_pos hbig]
      obtain ⟨hdirect, hend'⟩ := fileWrite_atEnd hend bytes
      refine ⟨?_, hend'⟩
      show (w.flush.fileWrite bytes).file ++ w.flush.buffer = _
      rw [hdirect, hfile, hbuffer, append_nil]
    · rw [if_neg hbig]
      refine ⟨?_, hend⟩
      show w.flush.file ++ (w.flush.buffer ++ bytes) = _
      rw [hfile, hbuffer, nil_append]
  · rw [if_neg hroom]
    by_cases hbig : capacity ≤ bytes.length
    · -- The buffer is empty: otherwise the bytes would not have fitted.
      have hempty : w.buffer = [] := by
        apply eq_nil_of_length_eq_zero
        unfold capacity at hroom hbig
        omega
      rw [if_pos hbig]
      obtain ⟨hdirect, hend'⟩ := fileWrite_atEnd h bytes
      refine ⟨?_, hend'⟩
      show (w.fileWrite bytes).file ++ w.buffer = w.file ++ w.buffer ++ bytes
      rw [hdirect, hempty, append_nil, append_nil]
    · rw [if_neg hbig]
      refine ⟨?_, h⟩
      show w.file ++ (w.buffer ++ bytes) = w.file ++ w.buffer ++ bytes
      rw [append_assoc]

end BufWriter

/-! ## The page directory -/

namespace DirectorySpool

/-- The slots pushed so far, spilled and in memory. -/
def slots (s : DirectorySpool) : Bytes := s.file.getD [] ++ s.buffer

/-- The spilled file is exactly what was spilled. -/
def Appends (s : DirectorySpool) : Prop := s.spilledBytes = (s.file.getD []).length

variable {s : DirectorySpool} {out : BufWriter}

theorem spill_appends (h : s.Appends) : s.spill.slots = s.slots ∧ s.spill.Appends ∧ s.spill.count = s.count := by
  unfold spill
  split
  · exact ⟨rfl, h, rfl⟩
  · have hfile : overwrite (s.file.getD []) s.spilledBytes s.buffer = s.file.getD [] ++ s.buffer := by
      rw [show s.spilledBytes = (s.file.getD []).length from h]
      exact overwrite_end _ _
    refine ⟨?_, ?_, rfl⟩
    · simp [slots, hfile]
    · show s.spilledBytes + s.buffer.length = (overwrite (s.file.getD []) s.spilledBytes s.buffer).length
      rw [hfile, length_append, show s.spilledBytes = (s.file.getD []).length from h]

theorem push_appends (h : s.Appends) {offset ordinal : Nat} {s' : DirectorySpool} (hp : s.push offset = .ok (ordinal, s')) :
    ordinal = s.count ∧ s.count < i32Max ∧ s'.slots = s.slots ++ leBytes directorySlotLen offset ∧ s'.Appends ∧
      s'.count = s.count + 1 := by
  unfold push at hp
  rw [guard_eq_ok] at hp
  obtain ⟨hlimit, hp⟩ := hp
  simp only [Except.ok.injEq, Prod.mk.injEq] at hp
  obtain ⟨rfl, rfl⟩ := hp
  have hslots : ({ s with buffer := s.buffer ++ leBytes directorySlotLen offset, count := s.count + 1 } : DirectorySpool).slots =
      s.slots ++ leBytes directorySlotLen offset := by
    simp [slots]
  refine ⟨rfl, by omega, ?_⟩
  split
  · obtain ⟨hspill, hok, hsame⟩ := spill_appends
      (s := { s with buffer := s.buffer ++ leBytes directorySlotLen offset, count := s.count + 1 }) h
    exact ⟨hspill.trans hslots, hok, hsame⟩
  · exact ⟨hslots, h, rfl⟩

theorem copySpilled_eq {file : Bytes} {turns cursor remaining : Nat} (hend : out.AtEnd)
    (ht : remaining ≤ turns) (hr : cursor + remaining = file.length) :
    ∃ out', copySpilled file turns cursor remaining out = .ok out' ∧ out'.contents = out.contents ++ file.drop cursor ∧
      out'.AtEnd := by
  induction turns generalizing cursor remaining out with
  | zero =>
    refine ⟨out, rfl, ?_, hend⟩
    rw [drop_eq_nil_of_le (by omega), append_nil]
  | succ turns ih =>
    rw [copySpilled]
    by_cases hzero : remaining = 0
    · rw [if_pos hzero]
      refine ⟨out, rfl, ?_, hend⟩
      rw [drop_eq_nil_of_le (by omega), append_nil]
    · rw [if_neg hzero]
      simp only
      have hchunk : 0 < copyChunk := by decide
      generalize hwant : min copyChunk remaining = want
      have hslice : slice file cursor want = some ((file.drop cursor).take want) := slice_of_le (by omega)
      rw [hslice, okOr_some, ok_bind]
      obtain ⟨hcontents, hend'⟩ := BufWriter.writeAll_atEnd hend ((file.drop cursor).take want)
      obtain ⟨out', hrun, hout, hat⟩ := ih hend' (show remaining - want ≤ turns by omega)
        (show cursor + want + (remaining - want) = file.length by omega)
      refine ⟨out', hrun, ?_, hat⟩
      rw [hout, hcontents, append_assoc, ← drop_drop, take_append_drop]

/-- Streaming the directory back appends the slots. -/
theorem writeInto_eq (h : s.Appends) (hend : out.AtEnd) :
    ∃ out', s.writeInto out = .ok out' ∧ out'.contents = out.contents ++ s.slots ∧ out'.AtEnd := by
  have hspilled : ∃ mid, s.spilledInto out = .ok mid ∧ mid.contents = out.contents ++ s.file.getD [] ∧ mid.AtEnd := by
    unfold spilledInto
    unfold Appends at h
    cases hf : s.file with
    | none => exact ⟨out, rfl, by simp, hend⟩
    | some file =>
      rw [hf] at h
      obtain ⟨mid, hrun, hmid, hat⟩ := copySpilled_eq hend (le_refl s.spilledBytes)
        (show 0 + s.spilledBytes = file.length by simpa using h)
      exact ⟨mid, hrun, by simpa using hmid, hat⟩
  obtain ⟨mid, hrun, hmid, hat⟩ := hspilled
  obtain ⟨hcontents, hend'⟩ := BufWriter.writeAll_atEnd hat s.buffer
  refine ⟨mid.writeAll s.buffer, ?_, ?_, hend'⟩
  · unfold writeInto
    rw [hrun, ok_bind]
  · rw [hcontents, hmid, append_assoc]
    rfl

end DirectorySpool

/-! ## The sink -/

/-- The file and the spooled directory come to those of `s`. -/
structure FileSink.Refines (f : FileSink) (s : PageSink) : Prop where
  atEnd : f.writer.AtEnd
  contents : f.writer.contents = s.file
  pos : f.pos = s.pos
  filter : f.filter = s.filter
  appends : f.directory.Appends
  slots : f.directory.slots = s.directory.flatMap (leBytes directorySlotLen)
  count : f.directory.count = s.directory.length

namespace FileSink.Refines

variable {f f' : FileSink} {s : PageSink} {offset : Nat}

theorem new (filter : Option PageFilter) (threshold : Nat) : (FileSink.new filter (.new threshold)).Refines { filter } :=
  ⟨rfl, rfl, rfl, rfl, rfl, rfl, rfl⟩

theorem writeRaw (h : f.Refines s) (bytes : Bytes) : (f.writeRaw bytes).Refines (s.writeRaw bytes) := by
  obtain ⟨hcontents, hend⟩ := BufWriter.writeAll_atEnd h.atEnd bytes
  refine ⟨hend, ?_, ?_, h.filter, h.appends, h.slots, h.count⟩
  · exact hcontents.trans (congrArg (· ++ bytes) h.contents)
  · show f.pos + bytes.length = (s.file ++ bytes).length
    rw [h.pos, length_append]
    rfl

theorem beginPage (h : f.Refines s) {ordinal : Nat} (hb : f.beginPage = .ok (ordinal, offset, f')) :
    ∃ s', s.beginPage = .ok (ordinal, offset, s') ∧ f'.Refines s' := by
  obtain ⟨⟨o, directory⟩, hpush, hb⟩ := bind_eq_ok.1 hb
  simp only [Except.ok.injEq, Prod.mk.injEq] at hb
  obtain ⟨rfl, rfl, rfl⟩ := hb
  obtain ⟨rfl, hlimit, hslots, happends, hcount⟩ := DirectorySpool.push_appends h.appends hpush
  rw [h.count] at hlimit
  refine ⟨{ s with directory := s.directory ++ [s.pos] }, ?_, h.atEnd, h.contents, h.pos, h.filter, happends, ?_, ?_⟩
  · unfold PageSink.beginPage
    rw [if_neg (Nat.not_le.2 hlimit), h.count, h.pos]
  · rw [hslots, h.slots, h.pos]
    simp
  · rw [hcount, h.count]
    simp

theorem writePage (h : f.Refines s) {page : Bytes} (hw : f.writePage page = .ok f') :
    ∃ s', s.writePage page = .ok s' ∧ f'.Refines s' := by
  unfold FileSink.writePage at hw
  unfold PageSink.writePage PageSink.storedPage
  rw [← h.filter]
  cases hf : f.filter with
  | none =>
    simp only [hf, Except.ok.injEq] at hw
    subst hw
    exact ⟨_, rfl, h.writeRaw page⟩
  | some filter =>
    simp only [hf, bind_eq_ok, guard_eq_ok, Except.ok.injEq] at hw
    obtain ⟨payload, hencode, hlimit, rfl⟩ := hw
    refine ⟨_, ?_, (h.writeRaw _).writeRaw payload⟩
    simp only [PageSink.filteredPage, hencode, ok_bind, if_neg hlimit, map_ok, PageSink.writeRaw, append_assoc]

/-- A patch inside the file: the buffer is written out first, and the position put back. -/
theorem patchAt (h : f.Refines s) {bytes : Bytes} (hin : offset + bytes.length ≤ s.file.length) :
    (f.patchAt offset bytes).Refines (s.patchAt offset bytes) := by
  obtain ⟨hfile, hbuffer, -⟩ := BufWriter.flush_atEnd h.atEnd
  have hlen := overwrite_length hin
  have hpatched : (f.patchAt offset bytes).writer.file = overwrite s.file offset bytes := by
    show overwrite f.writer.flush.file offset bytes = _
    rw [hfile, h.contents]
  refine ⟨?_, ?_, ?_, h.filter, h.appends, h.slots, h.count⟩
  · show f.pos = (f.patchAt offset bytes).writer.file.length
    rw [hpatched, hlen, h.pos]
    rfl
  · show (f.patchAt offset bytes).writer.file ++ f.writer.flush.buffer = _
    rw [hpatched, hbuffer, append_nil]
    rfl
  · show f.pos = (overwrite s.file offset bytes).length
    rw [hlen, h.pos]
    rfl

theorem finishDirectory (h : f.Refines s) {base count : Nat} (hf : f.finishDirectory = .ok (base, count, f')) :
    s.finishDirectory.1 = base ∧ s.finishDirectory.2.1 = count ∧ f'.Refines s.finishDirectory.2.2 := by
  obtain ⟨out, hrun, hcontents, hend⟩ := DirectorySpool.writeInto_eq h.appends h.atEnd
  obtain ⟨out', hrun', hf⟩ := bind_eq_ok.1 hf
  rw [hrun, Except.ok.injEq] at hrun'
  subst hrun'
  simp only [Except.ok.injEq, Prod.mk.injEq] at hf
  obtain ⟨rfl, rfl, rfl⟩ := hf
  have hslots : f.directory.spilledBytes + f.directory.buffer.length = f.directory.slots.length := by
    rw [DirectorySpool.slots, length_append, show f.directory.spilledBytes = _ from h.appends]
  refine ⟨h.pos.symm, h.count.symm, hend, ?_, ?_, h.filter, rfl, rfl, rfl⟩
  · rw [hcontents, h.contents, h.slots]
    rfl
  · show f.pos + (f.directory.spilledBytes + f.directory.buffer.length) = (s.file ++ _).length
    rw [hslots, h.slots, h.pos, length_append]
    rfl

theorem flushed (h : f.Refines s) : f.flush.writer.file = s.file := (BufWriter.flush_atEnd h.atEnd).1.trans h.contents

end FileSink.Refines

end DryDb
