import OstreeExt.Ima.Model

/-!
# A signed commit

What a rewriting has done so far is in its table, and the table is sound: it names the signed
object of each object that had to be signed, and of no other.  So the table, read as a map that
leaves what it does not name, is what has happened to the files of the tree, whichever path they
were met on first: `Rewrites` says so of a tree, in a way that later steps keep.

Signing again changes nothing, because each file of the new tree has a signature, and each
directory of it is written as it was read.
-/

namespace OstreeExt

open Std (ExtTreeMap)
open Exec

-- ── Objects without collisions ──

/-- No object has the checksum of a stored one, but for that one. -/
structure CollisionFree (lib : Libostree) (o : Objects) : Prop where
  files : ∀ (c : Checksum) f, o.files[c]? = some f → ∀ f', lib.fileChecksum f' = c → f' = f
  dirtrees : ∀ (c : Checksum) d, o.dirtrees[c]? = some d → ∀ d', lib.dirtreeChecksum d' = c → d' = d
  commits : ∀ (c : Checksum) k, o.commits[c]? = some k → ∀ k', lib.commitChecksum k' = c → k' = k

/-- A smaller store has fewer objects to collide with. -/
theorem CollisionFree.of_keeps {lib : Libostree} {o o' : Objects} (h : CollisionFree lib o')
    (hkeeps : o.Keeps o') : CollisionFree lib o where
  files c f hf := h.files c f (hkeeps.files c f hf)
  dirtrees c d hd := h.dirtrees c d (hkeeps.dirtrees c d hd)
  commits c k hk := h.commits c k (hkeeps.commits c k hk)

/-- What is stored under a name that only one value can have is that value. -/
theorem lookup_insertIfNew_unique {α : Type} {m : ExtTreeMap Checksum α} {k : Checksum} {v : α}
    (h : ∀ x, (m.insertIfNew k v)[k]? = some x → v = x) : (m.insertIfNew k v)[k]? = some v := by
  obtain ⟨x, hx⟩ := ExtTreeMap.mem_iff_lookup.mp (ExtTreeMap.mem_insertIfNew_iff.mpr (.inr rfl) :
    k ∈ m.insertIfNew k v)
  rw [hx, h x hx]

-- ── Later states ──

/-- The store and the table only grow. -/
structure Rewriting.Later (s s' : Rewriting) : Prop where
  objects : s.repo.toObjects.Keeps s'.repo.toObjects
  table : ∀ (c c' : Checksum), s.rewrittenFiles[c]? = some c' → s'.rewrittenFiles[c]? = some c'

namespace Rewriting

theorem Later.refl (s : Rewriting) : Later s s := ⟨.refl _, fun _ _ h => h⟩

theorem Later.trans {a b c : Rewriting} (h : Later a b) (h' : Later b c) : Later a c where
  objects := h.objects.trans h'.objects
  table x y hxy := h'.table x y (h.table x y hxy)

/-- The state after a line of the table has been added. -/
def remember (c mapped : Checksum) (s : Rewriting) : Rewriting :=
  { s with rewrittenFiles := s.rewrittenFiles.insert c mapped }

/-- The state after a dirtree has been written. -/
def storedTree (lib : Libostree) (d : DirTree) (s : Rewriting) : Rewriting :=
  { s with
    repo := Repo.record (.wrote .dirTree (lib.dirtreeChecksum d))
      { s.repo with dirtrees := s.repo.dirtrees.insertIfNew (lib.dirtreeChecksum d) d } }

theorem later_storedTree (lib : Libostree) (d : DirTree) (s : Rewriting) :
    Later s (s.storedTree lib d) where
  objects := .insert_dirtree _ _ _
  table _ _ h := h

theorem later_stored (lib : Libostree) (o : FileObject) (s : Rewriting) : Later s (s.stored lib o) where
  objects := .insert_file _ _ _
  table _ _ h := h

theorem later_remember {s : Rewriting} {c : Checksum} (h : s.rewrittenFiles[c]? = none)
    (mapped : Checksum) : Later s (s.remember c mapped) where
  objects := .refl _
  table x y hxy := by
    have hne : c ≠ x := by
      intro heq
      rw [heq, hxy] at h
      exact absurd h (by simp)
    show (s.rewrittenFiles.insert c mapped)[x]? = some y
    rw [ExtTreeMap.lookup_insert, if_neg hne, hxy]

theorem onRepo_ok {α : Type} {x : RepoM α} {a : α} {s s' : Rewriting} (h : onRepo x s = .ok a s') :
    ∃ r, x s.repo = .ok a r ∧ s' = { s with repo := r } := by
  rw [onRepo] at h
  cases hx : x s.repo with
  | ok b r =>
      rw [hx] at h
      injection h with hb hs
      exact ⟨r, by rw [hb], hs.symm⟩
  | error e r =>
      rw [hx] at h
      exact absurd h (by simp)

end Rewriting

-- ── One entry ──

section Entry

variable {lib : Libostree} {variant : Codec (List (Bytes × Bytes))} {w : CommitRewriter lib variant}
  {s s' : Rewriting} {e e' : String × Checksum}

/-- **What a successful run for one entry does**: the table is asked first, and a signed object is
    put into it. -/
theorem CommitRewriter.mapEntry_ok (h : w.mapEntry e s = .ok e' s') :
    (∃ mapped, s.rewrittenFiles[e.2]? = some mapped ∧ e' = (e.1, mapped) ∧ s' = s) ∨
      (s.rewrittenFiles[e.2]? = none ∧ ∃ o, s.repo.files[e.2]? = some o ∧
        ((LeftAlone variant w.ima.overwrite o ∧ e' = e ∧ s' = s) ∨
          (¬ LeftAlone variant w.ima.overwrite o ∧ ∃ sig,
            e' = (e.1, lib.fileChecksum (signedObject variant sig o)) ∧
            s' = (s.stored lib (signedObject variant sig o)).remember e.2
              (lib.fileChecksum (signedObject variant sig o))))) := by
  rw [mapEntry, bind_of_ok (get_run s)] at h
  cases hmemo : s.rewrittenFiles[e.2]? with
  | some mapped =>
      rw [hmemo] at h
      injection h with he hs
      exact .inl ⟨mapped, rfl, he.symm, hs.symm⟩
  | none =>
      rw [hmemo] at h
      obtain ⟨r, s₁, hfile, hrest⟩ := bind_ok h
      obtain ⟨o, ho, ⟨hleft, rfl, rfl⟩ | ⟨hleft, sig, rfl, rfl⟩⟩ := mapFile_ok hfile
      · injection hrest with he hs
        exact .inr ⟨rfl, o, ho, .inl ⟨hleft, he.symm, hs.symm⟩⟩
      · injection hrest with he hs
        exact .inr ⟨rfl, o, ho, .inr ⟨hleft, sig, he.symm, hs.symm⟩⟩

theorem CommitRewriter.mapEntry_later (h : w.mapEntry e s = .ok e' s') : s.Later s' := by
  obtain ⟨mapped, _, _, rfl⟩ | ⟨hnone, o, ho, ⟨_, _, rfl⟩ | ⟨_, sig, _, rfl⟩⟩ := mapEntry_ok h
  · exact .refl _
  · exact .refl _
  · have hstored := Rewriting.later_stored lib (signedObject variant sig o) s
    exact hstored.trans (@Rewriting.later_remember (s.stored lib _) _ hnone _)

/-- The table names the signed object of each object that had to be signed, and of no other. -/
def TableSound (variant : Codec (List (Bytes × Bytes))) (overwrite : Bool) (s : Rewriting) : Prop :=
  ∀ (x y : Checksum), s.rewrittenFiles[x]? = some y → ∃ o sig, s.repo.files[x]? = some o ∧
    ¬ LeftAlone variant overwrite o ∧ s.repo.files[y]? = some (signedObject variant sig o)

theorem TableSound.later {overwrite : Bool} (hsound : TableSound variant overwrite s)
    (hlater : s.Later s') (hsame : s'.rewrittenFiles = s.rewrittenFiles) :
    TableSound variant overwrite s' := by
  intro x y hxy
  rw [hsame] at hxy
  obtain ⟨o, sig, ho, hleft, hy⟩ := hsound x y hxy
  exact ⟨o, sig, hlater.objects.files _ _ ho, hleft, hlater.objects.files _ _ hy⟩

/-- What a content object is rewritten to. -/
def Mapped (variant : Codec (List (Bytes × Bytes))) (overwrite : Bool) (s : Rewriting)
    (x y : Checksum) : Prop :=
  s.rewrittenFiles[x]? = some y ∨
    (y = x ∧ ∃ o, s.repo.files[x]? = some o ∧ LeftAlone variant overwrite o)

theorem Mapped.later {overwrite : Bool} {x y : Checksum} (h : Mapped variant overwrite s x y)
    (hlater : s.Later s') : Mapped variant overwrite s' x y := by
  rcases h with h | ⟨rfl, o, ho, hleft⟩
  · exact .inl (hlater.table _ _ h)
  · exact .inr ⟨rfl, o, hlater.objects.files _ _ ho, hleft⟩

/-- **One entry** keeps the table sound, keeps its name, and is mapped. -/
theorem CommitRewriter.mapEntry_spec (hsound : TableSound variant w.ima.overwrite s)
    (h : w.mapEntry e s = .ok e' s') (hfree : CollisionFree lib s'.repo.toObjects) :
    TableSound variant w.ima.overwrite s' ∧
      (e'.1 = e.1 ∧ Mapped variant w.ima.overwrite s' e.2 e'.2) := by
  obtain ⟨mapped, hmemo, rfl, rfl⟩ | ⟨hnone, o, ho, ⟨hleft, rfl, rfl⟩ | ⟨hleft, sig, rfl, rfl⟩⟩ :=
    mapEntry_ok h
  · exact ⟨hsound, rfl, .inl hmemo⟩
  · exact ⟨hsound, rfl, .inr ⟨rfl, o, ho, hleft⟩⟩
  · have hlater := mapEntry_later h
    have hstored : (s.repo.files.insertIfNew (lib.fileChecksum (signedObject variant sig o))
        (signedObject variant sig o))[lib.fileChecksum (signedObject variant sig o)]?
          = some (signedObject variant sig o) :=
      lookup_insertIfNew_unique (fun f hf => hfree.files _ f hf _ rfl)
    refine ⟨?_, rfl, .inl ?_⟩
    · intro x y hxy
      change (s.rewrittenFiles.insert e.2 _)[x]? = some y at hxy
      rw [ExtTreeMap.lookup_insert] at hxy
      by_cases hx : e.2 = x
      · rw [if_pos hx] at hxy
        rw [← hx, ← Option.some.inj hxy]
        exact ⟨o, sig, hlater.objects.files _ _ ho, hleft, hstored⟩
      · rw [if_neg hx] at hxy
        obtain ⟨o', sig', ho', hleft', hy⟩ := hsound x y hxy
        exact ⟨o', sig', hlater.objects.files _ _ ho', hleft', hlater.objects.files _ _ hy⟩
    · show (s.rewrittenFiles.insert e.2 _)[e.2]? = _
      rw [ExtTreeMap.lookup_insert, if_pos rfl]

end Entry

-- ── Trees ──

/-- The tree below `c'` has come out of the one below `c`: the same names and the same directory
    metadata in the same order, with each file as `M` has it.  Every directory of the new tree is
    stored under its checksum. -/
def Rewrites (lib : Libostree) (o : Objects) (M : Checksum → Checksum → Prop) :
    Nat → Checksum → Checksum → Prop
  | 0, _, _ => False
  | n + 1, c, c' => ∃ d d', o.dirtrees[c]? = some d ∧ o.dirtrees[c']? = some d' ∧
      lib.dirtreeChecksum d' = c' ∧
      List.Forall₂ (fun e e' => e'.1 = e.1 ∧ M e.2 e'.2) d.files d'.files ∧
      List.Forall₂ (fun e e' => e'.1 = e.1 ∧ e'.2.2 = e.2.2 ∧ Rewrites lib o M n e.2.1 e'.2.1)
        d.dirs d'.dirs

section Tree

variable {lib : Libostree} {variant : Codec (List (Bytes × Bytes))} {w : CommitRewriter lib variant}
  {s s' : Rewriting}

theorem Rewrites.mono {o o' : Objects} {M M' : Checksum → Checksum → Prop} (hkeeps : o.Keeps o')
    (hM : ∀ x y, M x y → M' x y) {n : Nat} {c c' : Checksum} (h : Rewrites lib o M n c c') :
    Rewrites lib o' M' n c c' := by
  induction n generalizing c c' with
  | zero => exact h.elim
  | succ n ih =>
      obtain ⟨d, d', hd, hd', hsum, hfiles, hdirs⟩ := h
      refine ⟨d, d', hkeeps.dirtrees _ _ hd, hkeeps.dirtrees _ _ hd', hsum, ?_, ?_⟩
      · exact hfiles.imp (fun _ _ h => ⟨h.1, hM _ _ h.2⟩)
      · exact hdirs.imp (fun _ _ h => ⟨h.1, h.2.1, ih h.2.2⟩)

theorem Rewrites.later {overwrite : Bool} {n : Nat} {c c' : Checksum}
    (h : Rewrites lib s.repo.toObjects (Mapped variant overwrite s) n c c') (hlater : s.Later s') :
    Rewrites lib s'.repo.toObjects (Mapped variant overwrite s') n c c' :=
  h.mono hlater.objects (fun _ _ h => h.later hlater)

/-- One entry of the directories of a dirtree, in `map_dirtree`. -/
def CommitRewriter.mapSubdir (w : CommitRewriter lib variant) (fuel : Nat)
    (item : String × Checksum × Checksum) : RewriteM (String × Checksum × Checksum) := do
  let mapped ← w.mapDirtree fuel item.2.1
  pure (item.1, mapped, item.2.2)

/-- **A successful run for a dirtree**, step by step. -/
theorem CommitRewriter.mapDirtree_ok {n : Nat} {c c' : Checksum}
    (h : w.mapDirtree (n + 1) c s = .ok c' s') :
    ∃ d files s₁ dirs s₂, s.repo.dirtrees[c]? = some d ∧
      d.files.mapM w.mapEntry s = .ok files s₁ ∧
      d.dirs.mapM (w.mapSubdir n) s₁ = .ok dirs s₂ ∧
      c' = lib.dirtreeChecksum { files := files, dirs := dirs } ∧
      s' = s₂.storedTree lib { files := files, dirs := dirs } := by
  rw [mapDirtree, bind_of_ok (get_run s)] at h
  obtain ⟨d, s₀, hload, hrest⟩ := bind_ok h
  obtain ⟨hload, hs₀⟩ := liftR_eq_ok hload
  rw [hs₀] at hrest
  obtain ⟨files, s₁, hfiles, hrest₁⟩ := bind_ok hrest
  obtain ⟨dirs, s₂, hdirs, hrest₂⟩ := bind_ok hrest₁
  obtain ⟨r, hwrite, hs⟩ := Rewriting.onRepo_ok hrest₂
  injection hwrite with hc hr
  subst hc
  subst hr
  exact ⟨d, files, s₁, dirs, s₂, okOr_eq_ok.mp hload, hfiles, hdirs, rfl, hs⟩

theorem CommitRewriter.mapDirtree_run {n : Nat} {c : Checksum} {d : DirTree} {s₁ s₂ : Rewriting}
    {files : List (String × Checksum)} {dirs : List (String × Checksum × Checksum)}
    (hd : s.repo.dirtrees[c]? = some d) (hfiles : d.files.mapM w.mapEntry s = .ok files s₁)
    (hdirs : d.dirs.mapM (w.mapSubdir n) s₁ = .ok dirs s₂) :
    w.mapDirtree (n + 1) c s = .ok (lib.dirtreeChecksum { files := files, dirs := dirs })
      (s₂.storedTree lib { files := files, dirs := dirs }) := by
  have hload : s.repo.loadDirtree c = .ok d := by rw [Repo.loadDirtree, hd, okOr_some]
  rw [mapDirtree, bind_of_ok (get_run s), hload, bind_of_ok (liftR_ok _ _), bind_of_ok hfiles]
  show (d.dirs.mapM (w.mapSubdir n) >>= _ : RewriteM Checksum) s₁ = _
  rw [bind_of_ok hdirs]
  rfl

theorem CommitRewriter.mapSubdir_run {n : Nat} {item : String × Checksum × Checksum}
    {mapped : Checksum} (h : w.mapDirtree n item.2.1 s = .ok mapped s') :
    w.mapSubdir n item s = .ok (item.1, mapped, item.2.2) s' := by
  rw [mapSubdir, bind_of_ok h]
  rfl

theorem CommitRewriter.mapSubdir_ok {n : Nat} {item item' : String × Checksum × Checksum}
    (h : w.mapSubdir n item s = .ok item' s') :
    ∃ mapped, w.mapDirtree n item.2.1 s = .ok mapped s' ∧ item' = (item.1, mapped, item.2.2) := by
  obtain ⟨mapped, s₁, hmap, hpure⟩ := bind_ok h
  injection hpure with hitem hs
  exact ⟨mapped, by rw [hmap, hs], hitem.symm⟩

theorem CommitRewriter.mapDirtree_later {n : Nat} {c c' : Checksum}
    (h : w.mapDirtree n c s = .ok c' s') : s.Later s' := by
  induction n generalizing c c' s s' with
  | zero => exact absurd h (by simp [mapDirtree])
  | succ n ih =>
      obtain ⟨d, files, s₁, dirs, s₂, _, hfiles, hdirs, _, rfl⟩ := mapDirtree_ok h
      have hfirst : s.Later s₁ := mapM_ok_steps Rewriting.Later.refl
        (fun _ _ _ => Rewriting.Later.trans) (fun _ _ _ _ _ h => mapEntry_later h) hfiles
      have hsecond : s₁.Later s₂ := by
        refine mapM_ok_steps Rewriting.Later.refl (fun _ _ _ => Rewriting.Later.trans) ?_ hdirs
        intro item _ t item' t' hitem
        obtain ⟨mapped, hmap, _⟩ := mapSubdir_ok hitem
        exact ih hmap
      exact hfirst.trans (hsecond.trans (Rewriting.later_storedTree lib _ _))

/-- **A dirtree is rewritten** to the one that is returned, and the table stays sound. -/
theorem CommitRewriter.mapDirtree_spec {n : Nat} {c c' : Checksum}
    (hsound : TableSound variant w.ima.overwrite s) (h : w.mapDirtree n c s = .ok c' s')
    (hfree : CollisionFree lib s'.repo.toObjects) :
    TableSound variant w.ima.overwrite s' ∧
      Rewrites lib s'.repo.toObjects (Mapped variant w.ima.overwrite s') n c c' := by
  induction n generalizing c c' s s' with
  | zero => exact absurd h (by simp [mapDirtree])
  | succ n ih =>
      have hlater := mapDirtree_later h
      obtain ⟨d, files, s₁, dirs, s₂, hd, hfiles, hdirs, hc, hs⟩ := mapDirtree_ok h
      have hback : ∀ t t' : Rewriting, t.Later t' → CollisionFree lib t'.repo.toObjects →
          CollisionFree lib t.repo.toObjects := fun _ _ hl hf => hf.of_keeps hl.objects
      have hwritten : s₂.Later s' := by
        rw [hs]
        exact Rewriting.later_storedTree lib _ _
      have hsub : ∀ item ∈ d.dirs, ∀ t item' t', w.mapSubdir n item t = .ok item' t' → t.Later t' := by
        intro item _ t item' t' hitem
        obtain ⟨mapped, hmap, _⟩ := mapSubdir_ok hitem
        exact mapDirtree_later hmap
      have hsecond : s₁.Later s₂ := mapM_ok_steps Rewriting.Later.refl
        (fun _ _ _ => Rewriting.Later.trans) hsub hdirs
      have hfree₂ := hback _ _ hwritten hfree
      obtain ⟨hsound₁, hall⟩ := @mapM_ok_pointwise _ _ _ _ d.files w.mapEntry _ Rewriting.Later.refl
        (fun _ _ _ => Rewriting.Later.trans) (fun t => CollisionFree lib t.repo.toObjects)
        (fun t => TableSound variant w.ima.overwrite t)
        (fun t e e' => e'.1 = e.1 ∧ Mapped variant w.ima.overwrite t e.2 e'.2)
        (fun _ _ _ _ _ h => mapEntry_later h) hback
        (fun _ _ _ _ _ hI h hQ => mapEntry_spec hI h hQ)
        (fun _ _ _ _ hl h => ⟨h.1, h.2.later hl⟩) _ _ _ hsound hfiles (hback _ _ hsecond hfree₂)
      obtain ⟨hsound₂, hallDirs⟩ := @mapM_ok_pointwise _ _ _ _ d.dirs (w.mapSubdir n) _ Rewriting.Later.refl
        (fun _ _ _ => Rewriting.Later.trans) (fun t => CollisionFree lib t.repo.toObjects)
        (fun t => TableSound variant w.ima.overwrite t)
        (fun t e e' => e'.1 = e.1 ∧ e'.2.2 = e.2.2 ∧
          Rewrites lib t.repo.toObjects (Mapped variant w.ima.overwrite t) n e.2.1 e'.2.1)
        hsub hback
        (fun item _ t item' t' hI hitem hQ => by
          obtain ⟨mapped, hmap, rfl⟩ := mapSubdir_ok hitem
          obtain ⟨hI', hrewrites⟩ := ih hI hmap hQ
          exact ⟨hI', rfl, rfl, hrewrites⟩)
        (fun _ _ _ _ hl h => ⟨h.1, h.2.1, h.2.2.later hl⟩) _ _ _ hsound₁ hdirs hfree₂
      have hstored : s'.repo.dirtrees[c']? = some { files := files, dirs := dirs } := by
        rw [hs] at hfree ⊢
        rw [hc]
        exact lookup_insertIfNew_unique (fun x hx => hfree.dirtrees _ x hx _ rfl)
      refine ⟨?_, d, { files := files, dirs := dirs }, hlater.objects.dirtrees _ _ hd, hstored,
        hc.symm, ?_, ?_⟩
      · exact hsound₂.later hwritten (by rw [hs]; rfl)
      · exact hall.imp (fun _ _ h => ⟨h.1, h.2.later (hsecond.trans hwritten)⟩)
      · exact hallDirs.imp (fun _ _ h => ⟨h.1, h.2.1, h.2.2.later hwritten⟩)

end Tree

-- ── The paths of a tree ──

/-- What stands at a path: a file with its object, or a directory with its metadata. -/
inductive TreeEntry where
  | file (checksum : Checksum)
  | dir (dirmeta : Checksum)
  deriving DecidableEq

/-- The tree below `c` has this entry at this path. -/
inductive Objects.At (o : Objects) : Checksum → List String → TreeEntry → Prop where
  | file {c : Checksum} {d : DirTree} {f : String × Checksum} (hd : o.dirtrees[c]? = some d)
      (hf : f ∈ d.files) : At o c [f.1] (.file f.2)
  | dir {c : Checksum} {d : DirTree} {s : String × Checksum × Checksum}
      (hd : o.dirtrees[c]? = some d) (hs : s ∈ d.dirs) : At o c [s.1] (.dir s.2.2)
  | sub {c : Checksum} {d : DirTree} {s : String × Checksum × Checksum} {p : List String}
      {e : TreeEntry} (hd : o.dirtrees[c]? = some d) (hs : s ∈ d.dirs) (hp : At o s.2.1 p e) :
      At o c (s.1 :: p) e

/-- The entry with its file rewritten. -/
def TreeEntry.rewrite (f : Checksum → Checksum) : TreeEntry → TreeEntry
  | .file x => .file (f x)
  | .dir m => .dir m

section Paths

variable {lib : Libostree} {o o' : Objects} {n : Nat} {c c' : Checksum} {p : List String}
  {e : TreeEntry} {M : Checksum → Checksum → Prop}

theorem Objects.At.mono (h : o.At c p e) (hkeeps : o.Keeps o') : o'.At c p e := by
  induction h with
  | file hd hf => exact .file (hkeeps.dirtrees _ _ hd) hf
  | dir hd hs => exact .dir (hkeeps.dirtrees _ _ hd) hs
  | sub hd hs _ ih => exact .sub (hkeeps.dirtrees _ _ hd) hs ih

/-- A store that has the same dirtrees along the way has the same paths. -/
theorem Objects.At.transfer (h : o'.At c p e)
    (hsame : ∀ t, o.Reaches c .dirTree t → o'.dirtrees[t]? = o.dirtrees[t]?) : o.At c p e := by
  induction h with
  | file hd hf => exact .file ((hsame _ (.self _)).symm.trans hd) hf
  | dir hd hs => exact .dir ((hsame _ (.self _)).symm.trans hd) hs
  | sub hd hs _ ih =>
      have hd' := (hsame _ (.self _)).symm.trans hd
      exact .sub hd' hs (ih (fun t ht => hsame t (.sub hd' hs ht)))

theorem Objects.At.reaches {x : Checksum} (h : o.At c p (.file x)) : o.Reaches c .file x := by
  generalize he : TreeEntry.file x = e at h
  induction h with
  | file hd hf =>
      injection he with he
      rw [he]
      exact .file hd hf
  | dir hd hs => exact absurd he (by simp)
  | sub hd hs _ ih => exact .sub hd hs (ih he)

/-- The two directories, and what they hold. -/
theorem Rewrites.dirs (h : Rewrites lib o M n c c') :
    ∃ k d d', o.dirtrees[c]? = some d ∧ o.dirtrees[c']? = some d' ∧
      List.Forall₂ (fun e e' => e'.1 = e.1 ∧ M e.2 e'.2) d.files d'.files ∧
      List.Forall₂ (fun e e' => e'.1 = e.1 ∧ e'.2.2 = e.2.2 ∧ Rewrites lib o M k e.2.1 e'.2.1)
        d.dirs d'.dirs := by
  cases n with
  | zero => exact h.elim
  | succ k =>
      obtain ⟨d, d', hd, hd', _, hfiles, hdirs⟩ := h
      exact ⟨k, d, d', hd, hd', hfiles, hdirs⟩

/-- What stands in the new tree has come out of what stands there in the old one. -/
theorem Rewrites.at_old (h : Rewrites lib o M n c c') {f : Checksum → Checksum}
    (hM : ∀ x y, M x y → f x = y) (he : o.At c' p e) : ∃ e₀, o.At c p e₀ ∧ e₀.rewrite f = e := by
  induction he generalizing n c with
  | file hd₁ hx =>
      obtain ⟨k, d, d', hd, hd', hfiles, _⟩ := h.dirs
      obtain rfl := Option.some.inj (hd'.symm.trans hd₁)
      obtain ⟨x₀, hx₀, hname, hmapped⟩ := forall₂_mem_right hfiles hx
      refine ⟨.file x₀.2, ?_, ?_⟩
      · rw [hname]
        exact .file hd hx₀
      · rw [TreeEntry.rewrite, hM _ _ hmapped]
  | dir hd₁ hs =>
      obtain ⟨k, d, d', hd, hd', _, hdirs⟩ := h.dirs
      obtain rfl := Option.some.inj (hd'.symm.trans hd₁)
      obtain ⟨s₀, hs₀, hname, hmeta, _⟩ := forall₂_mem_right hdirs hs
      refine ⟨.dir s₀.2.2, ?_, ?_⟩
      · rw [hname]
        exact .dir hd hs₀
      · rw [TreeEntry.rewrite, hmeta]
  | sub hd₁ hs _ ih =>
      obtain ⟨k, d, d', hd, hd', _, hdirs⟩ := h.dirs
      obtain rfl := Option.some.inj (hd'.symm.trans hd₁)
      obtain ⟨s₀, hs₀, hname, _, hbelow⟩ := forall₂_mem_right hdirs hs
      obtain ⟨e₀, he₀, heq⟩ := ih hbelow
      refine ⟨e₀, ?_, heq⟩
      rw [hname]
      exact .sub hd hs₀ he₀

/-- What stands in the old tree stands in the new one, with its file rewritten. -/
theorem Rewrites.at_new (h : Rewrites lib o M n c c') {f : Checksum → Checksum}
    (hM : ∀ x y, M x y → f x = y) (he : o.At c p e) : o.At c' p (e.rewrite f) := by
  induction he generalizing n c' with
  | file hd₁ hx =>
      obtain ⟨k, d, d', hd, hd', hfiles, _⟩ := h.dirs
      obtain rfl := Option.some.inj (hd.symm.trans hd₁)
      obtain ⟨x', hx', hname, hmapped⟩ := forall₂_mem_left hfiles hx
      rw [TreeEntry.rewrite, hM _ _ hmapped, ← hname]
      exact .file hd' hx'
  | dir hd₁ hs =>
      obtain ⟨k, d, d', hd, hd', _, hdirs⟩ := h.dirs
      obtain rfl := Option.some.inj (hd.symm.trans hd₁)
      obtain ⟨s', hs', hname, hmeta, _⟩ := forall₂_mem_left hdirs hs
      rw [TreeEntry.rewrite, ← hmeta, ← hname]
      exact .dir hd' hs'
  | sub hd₁ hs _ ih =>
      obtain ⟨k, d, d', hd, hd', _, hdirs⟩ := h.dirs
      obtain rfl := Option.some.inj (hd.symm.trans hd₁)
      obtain ⟨s', hs', hname, _, hbelow⟩ := forall₂_mem_left hdirs hs
      rw [← hname]
      exact .sub hd' hs' (ih hbelow)

/-- A file of the old tree is mapped to something. -/
theorem Rewrites.mapped (h : Rewrites lib o M n c c') {x : Checksum} (he : o.At c p (.file x)) :
    ∃ y, M x y := by
  generalize hfile : TreeEntry.file x = e at he
  induction he generalizing n c' with
  | file hd₁ hf =>
      injection hfile with hfile
      obtain ⟨k, d, d', hd, _, hfiles, _⟩ := h.dirs
      obtain rfl := Option.some.inj (hd.symm.trans hd₁)
      obtain ⟨f', _, _, hmapped⟩ := forall₂_mem_left hfiles hf
      rw [hfile]
      exact ⟨_, hmapped⟩
  | dir => exact absurd hfile (by simp)
  | sub hd₁ hs _ ih =>
      obtain ⟨k, d, d', hd, _, _, hdirs⟩ := h.dirs
      obtain rfl := Option.some.inj (hd.symm.trans hd₁)
      obtain ⟨s', _, _, _, hbelow⟩ := forall₂_mem_left hdirs hs
      exact ih hbelow hfile

/-- What the new tree reaches: stored dirtrees, rewritten files, and the metadata of the old
    one. -/
theorem Rewrites.reaches (h : Rewrites lib o M n c c') {ty : ObjectType} {x : Checksum}
    (hx : o.Reaches c' ty x) :
    (ty = .dirTree ∧ x ∈ o.dirtrees) ∨ (ty = .file ∧ ∃ y, o.Reaches c .file y ∧ M y x) ∨
      (ty = .dirMeta ∧ o.Reaches c .dirMeta x) := by
  induction n generalizing c c' with
  | zero => exact h.elim
  | succ n ih =>
      obtain ⟨d, d', hd, hd', _, hfiles, hdirs⟩ := h
      rcases Objects.reaches_iff.mp hx with ⟨rfl, rfl⟩ | ⟨d₁, hd₁, hbelow⟩
      · exact .inl ⟨rfl, ExtTreeMap.mem_iff_lookup.mpr ⟨_, hd'⟩⟩
      · rw [hd'] at hd₁
        injection hd₁ with hd₁
        rw [← hd₁] at hbelow
        rcases hbelow with ⟨rfl, f, hf, rfl⟩ | ⟨s, hs, ⟨rfl, rfl⟩ | hsub⟩
        · obtain ⟨f₀, hf₀, _, hmapped⟩ := forall₂_mem_right hfiles hf
          exact .inr (.inl ⟨rfl, f₀.2, .file hd hf₀, hmapped⟩)
        · obtain ⟨s₀, hs₀, _, hmeta, _⟩ := forall₂_mem_right hdirs hs
          rw [hmeta]
          exact .inr (.inr ⟨rfl, .dirmeta hd hs₀⟩)
        · obtain ⟨s₀, hs₀, _, _, hrewrites⟩ := forall₂_mem_right hdirs hs
          rcases ih hrewrites hsub with htree | ⟨hty, y, hy, hmapped⟩ | ⟨hty, hmeta⟩
          · exact .inl htree
          · exact .inr (.inl ⟨hty, y, .sub hd hs₀ hy, hmapped⟩)
          · exact .inr (.inr ⟨hty, .sub hd hs₀ hmeta⟩)

end Paths

end OstreeExt
