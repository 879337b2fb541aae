import HashFile.Proofs.Copying
import HashFile.Proofs.HeaderBlock

/-!
# Reopening a flushed file

A flush leaves on disk the header in block 0, the directory in its region and
every bucket the directory names in its block (`Flushed`, `Coherent`). Opening
the file again reads them back: the header from the bytes its length prefix
announces (`Header.decode_extract`), the directory from its region, checked to
name only blocks inside the allocated area, and each bucket from its block when
it is first needed. Every one of these reads decodes what was written, so the
index opened has the image the flushed one had (`Index.reopen`): the same
lookups, traversal, header and directory, and it is sound and ready.
-/
namespace HashFile

/-! ## Reading a prefix of a block -/

theorem readWord_extract (b : ByteArray) {n pos w : Nat} (h : pos + w ≤ n) :
    readWord (b.extract 0 n) pos w = readWord b pos w := by
  unfold readWord
  congr 1
  refine List.map_congr_left fun i hi => ?_
  have hi' : pos + i < n := by
    rw [List.mem_range] at hi
    omega
  rw [getElem?_eq_data, getElem?_eq_data, ByteArray.data_extract, Array.toList_extract,
    List.extract, Nat.sub_zero, List.drop_zero, List.getElem?_take_of_lt hi']

theorem sliceBytes_extract (b : ByteArray) {n pos len : Nat} (h : pos + len ≤ n) :
    sliceBytes (b.extract 0 n) pos len = sliceBytes b pos len := by
  refine ByteArray.ext (Array.ext' ?_)
  rw [toList_sliceBytes, toList_sliceBytes, ByteArray.data_extract, Array.toList_extract,
    List.extract, Nat.sub_zero, List.drop_zero, List.drop_take, List.take_take,
    Nat.min_eq_left (by omega)]

/-- The first bytes of a window are the window of those bytes. -/
theorem SparseBytes.window_extract (f : Nat → UInt8) (off : Nat) {n m : Nat} (h : n ≤ m) :
    (SparseBytes.window f off m).extract 0 n = SparseBytes.window f off n := by
  refine ByteArray.ext (Array.ext_getElem? fun j => ?_)
  have hsz : (SparseBytes.window f off m).data.size = m := SparseBytes.size_window f off m
  rw [ByteArray.data_extract, Array.getElem?_extract, hsz, Nat.sub_zero, Nat.zero_add,
    SparseBytes.getElem?_window, SparseBytes.getElem?_window]
  by_cases hj : j < n
  · rw [if_pos (by omega), if_pos (by omega), if_pos hj]
  · rw [if_neg (by omega), if_neg hj]

namespace Header

/-- A header that decodes was read from at least as many bytes as its length
prefix announces. -/
theorem span_le_of_decode {b : ByteArray} {fileLen : Nat} {h : Header}
    (hd : decode b fileLen = .ok h) : headerPrefixSize + readWord b 0 4 ≤ b.size := by
  unfold decode at hd
  split at hd
  · cases hd
  dsimp only at hd
  split at hd
  · cases hd
  split at hd
  · cases hd
  omega

/-- Decoding reads only the bytes the length prefix announces: any prefix that
holds them decodes alike. -/
theorem decode_extract {b : ByteArray} {n : Nat} (hn : headerPrefixSize + readWord b 0 4 ≤ n)
    (hb : n ≤ b.size) (fileLen : Nat) : decode (b.extract 0 n) fileLen = decode b fileLen := by
  have hsize : (b.extract 0 n).size = n := by
    rw [ByteArray.size_extract]
    omega
  unfold headerPrefixSize at hn
  have hlen : readWord (b.extract 0 n) 0 4 = readWord b 0 4 := readWord_extract b (by omega)
  have hcrc : readWord (b.extract 0 n) 4 4 = readWord b 4 4 := readWord_extract b (by omega)
  have hslice : sliceBytes (b.extract 0 n) headerPrefixSize (readWord b 0 4) =
      sliceBytes b headerPrefixSize (readWord b 0 4) := sliceBytes_extract b hn
  have c1 : ¬ n < headerPrefixSize := by unfold headerPrefixSize; omega
  have c1' : ¬ b.size < headerPrefixSize := by unfold headerPrefixSize; omega
  have c2 : ¬ n < headerPrefixSize + readWord b 0 4 := by unfold headerPrefixSize; omega
  have c2' : ¬ b.size < headerPrefixSize + readWord b 0 4 := by unfold headerPrefixSize; omega
  unfold decode
  simp only [hsize, hlen, hcrc, hslice, if_neg c1, if_neg c1', if_neg c2, if_neg c2']

end Header

namespace StoreFile

/-- A file whose first bytes are a header block that decodes, naming a
directory, starts as that header's file: the length prefix is read, then the
bytes it announces, and they decode to the header. -/
theorem start_of_block {c : Config} {mode : OpenMode} {f : OpenFile} {v : Volume}
    {block : ByteArray} {h : Header} (hsize : block.size ≤ v.fileLen f.ino)
    (hwin : SparseBytes.window (v.data f.ino).byteAt 0 block.size = block)
    (hdec : Header.decode block (v.fileLen f.ino) = .ok h) (hdir : h.dirOffset ≠ 0) :
    start c mode f v =
      .ok (⟨c.path, f, h, false, mode.isWriter, c.reportsFatal⟩, false) := by
  have hspan := Header.span_le_of_decode hdec
  unfold headerPrefixSize at hspan
  have hread : ∀ n, n ≤ block.size → v.readFrom f.ino 0 n = block.extract 0 n := fun n hn => by
    rw [Volume.readFrom, SparseBytes.read_eq_window (by unfold Volume.fileLen at hsize; omega),
      ← hwin, SparseBytes.window_extract _ _ hn]
  have hlead : Header.span (v.readFrom f.ino 0 headerPrefixSize) =
      headerPrefixSize + readWord block 0 4 := by
    rw [hread headerPrefixSize (by unfold headerPrefixSize; omega), Header.span,
      readWord_extract block (by unfold headerPrefixSize; omega)]
  have hbody : Header.decode (v.readFrom f.ino 0 (headerPrefixSize + readWord block 0 4))
      (v.fileLen f.ino) = .ok h := by
    rw [hread _ (by unfold headerPrefixSize; omega),
      Header.decode_extract (Nat.le_refl _) (by unfold headerPrefixSize; omega), hdec]
  have hlen : v.fileLen f.ino ≠ 0 := by omega
  unfold start
  simp only [if_neg hlen, hlead, hbody, if_neg hdir]

end StoreFile

namespace Index

variable {v v' : Volume} {ix ix0 : Index}

/-- Every directory entry of a sound index names a block past the header block
and below the frontier. -/
theorem Sound.entry_inside (hs : Sound v ix) {e : Nat} (he : e ∈ ix.dir.entries) :
    ix.file.header.blockSize ≤ e ∧ e + ix.file.header.blockSize ≤ ix.file.header.nextBlock := by
  have ho : e ∈ (image v ix).live := Image.mem_live.2 (Array.mem_toList_iff.2 he)
  have hblock : (image v ix).block e ∈ (image v ix).live.map (image v ix).block ++
      (image v ix).records := List.mem_append_left _ (List.mem_map_of_mem ho)
  have hbelow := hs.layout.used_below _ (List.mem_cons_of_mem _ (List.mem_cons_of_mem _ hblock))
  have hapart := hs.used_parts.1 _ (List.mem_cons_of_mem _ hblock)
  have hbs := (validBlockSize_bounds hs.blockSize).1
  simp only [Region.Disjoint, Region.stop, Image.block, image] at hbelow hapart
  omega

/-- A sound index with its directory on disk: an index of the same file and
header loads that directory, marked clean, and changes nothing else. -/
theorem Sound.runs_load (hs : Sound v ix) (hd : DirStored v ix)
    (hh : ix0.file.header = ix.file.header) (hino : ix0.file.handle.ino = ix.file.handle.ino) :
    Runs load (v, ix0) () (v, { ix0 with dir := { ix.dir with dirty := false } }) := by
  have hI := hs.shaped
  have hbits : ix.file.header.dirBits = ix.dir.bits := hI.dirBits_eq
  have hoff : ix.file.header.dirOffset = ix.dir.offset := hI.dirOffset_eq
  obtain ⟨hsz, hwin⟩ := hd
  have hread : v.readAt ix0.file.handle.ino ix.dir.offset (Directory.byteSize ix.dir.bits) =
      some ix.dir.encode := by
    have hpos : Directory.byteSize ix.dir.bits ≠ 0 := by
      rw [Directory.byteSize_eq]
      positivity
    unfold disk at hsz hwin
    unfold Volume.readAt
    rw [hino, if_neg hpos, if_pos hsz, SparseBytes.read_eq_window hsz]
    exact congrArg some hwin
  have hlim : ix.dir.offset ≤ Volume.maxFileSize := by
    have := hs.coherent.size_le
    unfold disk at hsz this
    omega
  have hdec : Directory.decode ix.dir.encode ix.dir.bits ix.dir.offset = { ix.dir with dirty := false } :=
    Directory.decode_encode hI.aligned.size_eq fun e he => by
      have := (hs.entry_inside he).2
      have := hs.layout.next_lt
      unfold wordSize at this
      simp only [Nat.pow_eq] at this
      omega
  have hnone : ({ ix.dir with dirty := false } : Directory).entries.find?
      (fun e => e < ix.file.header.blockSize ||
        ix.file.header.nextBlock < min (e + ix.file.header.blockSize) wordMax) = none := by
    rw [Array.find?_eq_none]
    intro e he
    obtain ⟨h1, h2⟩ := hs.entry_inside he
    simp only [Bool.or_eq_true, decide_eq_true_eq, not_or, not_lt]
    exact ⟨h1, Nat.le_trans (Nat.min_le_left _ _) h2⟩
  have helems : ¬ ix.file.header.bucketElems ≠ elemsForBlock ix.file.header.blockSize :=
    not_not.2 hs.elems
  have hdeep : ¬ hashBits < ix.file.header.dirBits := by
    rw [hbits]
    exact Nat.not_lt.2 hI.bits_le
  unfold load
  refine runs_bind.2 ⟨_, _, runs_header.2 ⟨rfl, rfl⟩, ?_⟩
  dsimp only
  rw [hh, runs_ite, if_neg helems, runs_ite, if_neg hdeep]
  refine runs_bind.2 ⟨_, _, runs_readAt.2 ⟨by rw [hoff]; exact hlim, by rw [hoff, hbits]; exact hread,
    rfl⟩, ?_⟩
  rw [hoff, hbits, hdec, hnone]
  exact runs_modifyIndex.2 rfl

/-- A flushed index has every live bucket in its block. -/
theorem Sound.stored_of_flushed (hs : Sound v ix) (hf : Flushed ix) {o : Nat}
    (ho : o ∈ (image v ix).live) : StoredAt v ix o :=
  hs.coherent.stored o ho fun ⟨e, he, _, hd⟩ => by
    rw [hf.cache e he] at hd
    cases hd

/-! ## The index read back -/

/-- An index read back from the file a flushed index left: the same file and
header, the header clean, the directory the same but marked clean, and nothing
cached yet. -/
structure Reloaded (v : Volume) (ix : Index) (v' : Volume) (ix' : Index) : Prop where
  header : ix'.file.header = ix.file.header
  ino : ix'.file.handle.ino = ix.file.handle.ino
  data : v'.data ix.file.handle.ino = v.data ix.file.handle.ino
  ino_lt : ix.file.handle.ino < v'.inodes.size
  headerDirty : ix'.file.headerDirty = false
  dir : ix'.dir = { ix.dir with dirty := false }
  cache : ix'.cache.entries = []

namespace Reloaded

variable {ix' : Index}

theorem disk (h : Reloaded v ix v' ix') : Index.disk v' ix' = Index.disk v ix := by
  unfold Index.disk
  rw [h.ino, h.data]

/-- Nothing is cached, so a bucket is read from its block, which holds it. -/
theorem bucketAt (h : Reloaded v ix v' ix') (hs : Sound v ix) (hf : Flushed ix) {o : Nat}
    (ho : o ∈ (image v ix).live) : Index.bucketAt v' ix' o = Index.bucketAt v ix o := by
  have hfind : ix'.cache.find? o = none := by
    unfold BucketCache.find?
    rw [h.cache]
    rfl
  obtain ⟨-, hwin⟩ := hs.stored_of_flushed hf ho
  show (ix'.cache.find? o).getD (storedBucket v' ix' o) = _
  rw [hfind, Option.getD_none]
  unfold storedBucket
  rw [h.disk, h.header, hwin]
  have hdec := Bucket.decode_encode (hs.shaped.fits o ho) hs.room
  simp only [image] at hdec
  rw [hdec]

theorem agree (h : Reloaded v ix v' ix') (hs : Sound v ix) (hf : Flushed ix) :
    (image v ix).Agree (image v' ix') where
  blockSize := by simp only [image, h.header]
  dirOffset := by simp only [image, h.header]
  dirBits := by simp only [image, h.header]
  bucketElems := by simp only [image, h.header]
  bits := by simp only [image, h.dir]
  entries := by simp only [image, h.dir]
  offset := by simp only [image, h.dir]
  bucket o ho := h.bucketAt hs hf ho
  byte _ _ _ _ _ := by simp only [image, h.disk]

/-- The index read back is sound: its image agrees with the flushed one's, and
every live bucket, the header and the directory are where it will read them. -/
theorem sound (h : Reloaded v ix v' ix') (hs : Sound v ix) (hf : Flushed ix) : Sound v' ix' := by
  have hag := h.agree hs hf
  have hco := hs.coherent
  have hlive : (image v' ix').live = (image v ix).live := hag.live
  obtain ⟨hhsz, block, henc, hhwin⟩ := hco.header hf.header
  obtain ⟨hdsz, hdwin⟩ := hco.dir hf.dir
  refine ⟨hag.shaped hs.shaped, ?_, h.header ▸ hs.blockSize, h.header ▸ hs.elems,
    h.header ▸ hs.capacity, ⟨h.ino ▸ h.ino_lt, h.disk ▸ hco.ordered, h.disk ▸ hco.size_le,
      ?_, ?_, ?_, ?_, ?_, ?_, ?_⟩⟩
  · rw [hag.used, h.header]
    exact hs.layout
  · unfold BucketCache.Distinct
    rw [h.cache]
    exact List.nodup_nil
  · intro e he
    rw [h.cache] at he
    cases he
  · intro e he
    rw [h.cache] at he
    cases he
  · intro o ho _
    rw [hlive] at ho
    obtain ⟨hsz, hwin⟩ := hs.stored_of_flushed hf ho
    exact ⟨by rw [h.disk, h.header]; exact hsz, by rw [h.disk, h.header, h.bucketAt hs hf ho]; exact hwin⟩
  · intro _ e he
    rw [h.cache] at he
    cases he
  · exact fun _ => ⟨by rw [h.disk, h.header]; exact hhsz, block, by rw [h.header]; exact henc,
      by rw [h.disk, h.header]; exact hhwin⟩
  · intro _
    unfold DirStored
    rw [h.disk, h.dir]
    exact ⟨hdsz, hdwin⟩

theorem ready (h : Reloaded v ix v' ix') (hr : Ready v ix) (hf : Flushed ix) : Ready v' ix' := by
  have hag := h.agree hr.sound hf
  refine ⟨h.sound hr.sound hf, fun e he => ?_, fun e he => ?_, h.header ▸ hr.frontier⟩
  · rw [hag.slots] at he
    rw [h.disk]
    exact hr.records e he
  · rw [hag.slots] at he
    exact hr.offsets e he

end Reloaded

/-! ## Opening the file again -/

/-- The fields of the header of a sound index fit the words they are written
in: all lie below the frontier, itself below the largest word. -/
theorem Sound.header_fits (hs : Sound v ix) : ix.file.header.Fits := by
  have hI := hs.shaped
  have hnext := hs.layout.next_lt
  have hdir := hs.dir_below
  have hoff : ix.file.header.dirOffset = ix.dir.offset := hI.dirOffset_eq
  have hbits : ix.file.header.dirBits = ix.dir.bits := hI.dirBits_eq
  have hdeep : ix.dir.bits ≤ hashBits := hI.bits_le
  unfold wordSize at hnext
  simp only [Nat.pow_eq] at hnext
  refine ⟨by omega, by unfold hashBits at hdeep; omega, elems_lt_of_valid hs.blockSize hs.elems, hnext,
    fun r hr => ?_⟩
  have := hs.layout.free_below r hr
  simp only [Region.stop] at this
  exact ⟨by omega, by omega⟩

/-- The header of a sound index lies past its first block: the directory's
region, apart from the header block, begins no earlier than the block ends. -/
theorem Sound.dirOffset_ne_zero (hs : Sound v ix) : ix.file.header.dirOffset ≠ 0 := by
  have hapart := hs.used_parts.1 _ List.mem_cons_self
  have hpos : 0 < Directory.byteSize ix.dir.bits := by
    rw [Directory.byteSize_eq]
    positivity
  have hbs := (validBlockSize_bounds hs.blockSize).1
  have hoff : ix.file.header.dirOffset = ix.dir.offset := hs.shaped.dirOffset_eq
  simp only [Region.Disjoint, Region.stop] at hapart
  omega

/-- The header block of a flushed sound index holds a block of the header's size
that reads back as the header from the file. -/
theorem Sound.header_block (hs : Sound v ix) (hf : Flushed ix) :
    ∃ block, block.size = ix.file.header.blockSize ∧ block.size ≤ (disk v ix).size ∧
      SparseBytes.window (disk v ix).byteAt 0 block.size = block ∧
      Header.decode block (disk v ix).size = .ok ix.file.header := by
  obtain ⟨hsz, block, henc, hwin⟩ := hs.coherent.header hf.header
  obtain ⟨block', henc', hsize', hdec⟩ := Header.decode_encode hs.blockSize hs.capacity
    hs.layout.sorted (hs.capacity ▸ hs.layout.length_le) hs.header_fits
  obtain rfl : block' = block := Except.ok.inj (henc'.symm.trans henc)
  exact ⟨block', hsize', by rw [hsize']; exact hsz, by rw [hsize']; exact hwin, hdec _ hsz⟩

/-- Opening the file of a flushed sound index again, in a mode that keeps the
file's bytes, once the path is opened to that file and the lock is granted (or
not asked for): the open runs and gives an index read back from the file, open
in the mode asked for, with the configuration's options and cache size. -/
theorem Sound.reopen (hs : Sound v ix) (hf : Flushed ix) {c : Config} {mode : OpenMode}
    (hmode : mode ≠ .newDb) {f : OpenFile} {v1 v2 : Volume}
    (hpath : v.openPath c.path (StoreFile.access c.permissions mode) = .ok (.file f, v1))
    (hino : f.ino = ix.file.handle.ino)
    (hlock : (if c.options.nolock then some v1 else v1.tryLock f (StoreFile.lockKind mode)) = some v2) :
    ∃ ix', openIn c mode v = (.ok ix', v2) ∧ Reloaded v ix v2 ix' ∧
      ix'.file.writable = mode.isWriter ∧ ix'.options = c.options ∧
      ix'.syncMode = c.options.sync ∧ ix'.cache.capacity = max c.cacheSize 1 := by
  have hlt := hs.coherent.ino_lt
  have hv1 : v1 = (v.describe f.ino).2 := by
    obtain ⟨t, n, -, -, ⟨-, hd⟩ | ⟨-, -, -, hnew, -⟩⟩ := Volume.openPath_eq_file hpath
    · exact (congrArg Prod.snd hd).symm
    · omega
  have hv2 : v2.data = v.data ∧ v2.inodes.size = v.inodes.size := by
    subst hv1
    split at hlock
    · cases hlock
      exact ⟨rfl, rfl⟩
    · obtain ⟨-, -, hd, hsz⟩ := Volume.tryLock_keeps hlock
      exact ⟨hd, hsz⟩
  have hdisk : disk v2 ix = disk v ix := by
    unfold disk
    rw [hv2.1]
  obtain ⟨block, -, hbsz, hwin, hdec⟩ := hs.header_block hf
  have hstart : StoreFile.start c mode f v2 =
      .ok (⟨c.path, f, ix.file.header, false, mode.isWriter, c.reportsFatal⟩, false) := by
    unfold disk at hdisk hbsz hwin hdec
    rw [← hdisk, ← hino] at hbsz hwin hdec
    exact StoreFile.start_of_block hbsz hwin hdec hs.dirOffset_ne_zero
  have hopen : StoreFile.openFile c mode v =
      (.ok (⟨c.path, f, ix.file.header, false, mode.isWriter, c.reportsFatal⟩, false), v2) := by
    unfold StoreFile.openFile
    rw [hpath]
    dsimp only
    rw [hlock]
    dsimp only
    rw [if_neg hmode, hstart]
  set ix0 : Index := ⟨⟨c.path, f, ix.file.header, false, mode.isWriter, c.reportsFatal⟩,
    Directory.uniform 0 0 0, BucketCache.empty c.cacheSize, c.options, false⟩
  have hs2 : Sound v2 ix := hs.of_disk hdisk (by rw [hv2.2]; exact hlt)
  have hload : Runs load (v2, ix0) () (v2, { ix0 with dir := { ix.dir with dirty := false } }) :=
    hs2.runs_load (by
      have hd := hs.coherent.dir hf.dir
      unfold DirStored at hd ⊢
      rw [hdisk]
      exact hd) rfl hino
  refine ⟨{ { ix0 with dir := { ix.dir with dirty := false } } with syncMode := c.options.sync }, ?_,
    ⟨rfl, hino, by rw [hv2.1], by rw [hv2.2]; exact hlt, rfl, rfl, rfl⟩, rfl, rfl, rfl, rfl⟩
  unfold openIn
  rw [hopen]
  simp only [Bool.false_eq_true, if_false]
  rw [run_eq_of_runs hload]

end Index

end HashFile
