import DiskNexus.Lib.Files

/-!
# The files of a repository

The names of the files under `chunks/` and `index/`, with the strings they stand for.
-/

namespace DiskNexus

open Files

/-- A file of the `chunks/` or the `index/` directory. -/
inductive FileName
  /-- `%04d.pack` of a pack number -/
  | pack (num : ℕ)
  /-- `.generation` -/
  | generation
  /-- `bloom.bin` -/
  | bloom
  /-- `bloom.bin.enc` -/
  | bloomEnc
  /-- `hash-index.db` -/
  | hashIndex
  /-- `hash-index.db.enc` -/
  | hashIndexEnc
  /-- `hash-index.db.tmp` -/
  | hashIndexTmp
  /-- `hash-index.db.session` -/
  | session
  /-- `hash-index.db.session.tmp` -/
  | sessionTmp
  /-- `hash-index.db.htab` -/
  | htab
  /-- `hash-index.db.htab.tmp` -/
  | htabTmp
  /-- `hash-index.db.b%d.tmp` -/
  | bucket (k : ℕ)
  /-- `hash-index.db.delta.%06d` -/
  | hashIndexDelta (i : ℕ)
  /-- `deltas/<stem>.delta`, or `deltas/<stem>.delta.enc` if it is encrypted -/
  | delta (stem : String) (encrypted : Bool)
  /-- `<name>.tmp-*`, the temporary of an atomic write of an encrypted file -/
  | atomicTmp
  /-- any other file -/
  | other (name : String)
  deriving DecidableEq, Repr

/-- The files of one directory of a repository. -/
abbrev RepoDir := Dir FileName

/-- The ephemeral files of the index directory. -/
def FileName.Working : FileName → Prop
  | .hashIndexTmp | .session | .sessionTmp | .htab | .htabTmp | .bucket _ | .hashIndexDelta _ =>
    True
  | _ => False

/-- The files an open of the index reads. -/
def FileName.Persistent : FileName → Prop
  | .bloom | .bloomEnc | .hashIndex | .hashIndexEnc | .delta _ _ => True
  | _ => False

lemma not_working_ne {f : FileName} (hf : ¬ f.Working) (g : FileName) (hg : g.Working) : g ≠ f := by
  rintro rfl
  exact hf hg

lemma FileName.Persistent.not_working {f : FileName} (hf : f.Persistent) : ¬ f.Working := by
  cases f <;> first | exact fun h => h | exact fun _ => hf

lemma FileName.Persistent.ne_other {f : FileName} (hf : f.Persistent) (name : String) :
    FileName.other name ≠ f := by
  rintro rfl
  exact hf

end DiskNexus
