import OstreeExt.Store.Layer
import OstreeExt.Tar.Frame

/-!
# Interrupted imports

What an import leaves behind when it is interrupted or fails: in the middle of its transaction
(no object has arrived, but partial marks are written at once), or while the transaction is
committed (the staged objects arrive one at a time, in any order).

`import_tar` removes the partial mark after the transaction; the commit layer of
`unencapsulate_base` removes it inside.  The first order keeps every commit that looks complete
complete, over any number of crashes and retries; the second one does so only where there was
nothing left to import (`leaves_sound`).
-/

namespace OstreeExt.Store

open OstreeExt Tar Exec Std

-- ── Interrupted transactions ──────────────────────────────────────────────────

/-- What an event does to the partial marks. -/
def applyMark (marks : Finset Checksum) : RepoEvent → Finset Checksum
  | .markedPartial c true => insert c marks
  | .markedPartial c false => marks.erase c
  | _ => marks

/-- The partial marks after some events. -/
def replayMarks (marks : Finset Checksum) (events : List RepoEvent) : Finset Checksum :=
  events.foldl applyMark marks

/-- One step of a transaction commit: an object of the staging directory is moved into the
    repository.  The refs are updated when all objects are there. -/
inductive Publish (staged : Repo) : Repo → Repo → Prop where
  | commit {x : Repo} {c : Checksum} {v : Commit} (h : staged.commits[c]? = some v) :
      Publish staged x { x with commits := x.commits.insertIfNew c v }
  | dirtree {x : Repo} {c : Checksum} {v : DirTree} (h : staged.dirtrees[c]? = some v) :
      Publish staged x { x with dirtrees := x.dirtrees.insertIfNew c v }
  | dirmeta {x : Repo} {c : Checksum} {v : DirMeta} (h : staged.dirmetas[c]? = some v) :
      Publish staged x { x with dirmetas := x.dirmetas.insertIfNew c v }
  | file {x : Repo} {c : Checksum} {v : FileObject} (h : staged.files[c]? = some v) :
      Publish staged x { x with files := x.files.insertIfNew c v }
  | commitmeta {x : Repo} {c : Checksum} {v : Dict} (h : staged.commitmetas[c]? = some v) :
      Publish staged x { x with commitmetas := x.commitmetas.insert c v }
  | ref {x : Repo} {name : String} {c : Checksum} (hall : staged.toObjects.Keeps x.toObjects)
      (h : staged.refs[name]? = some c) :
      Publish staged x { x with refs := x.refs.insert name c }

/-- The repository when a transaction starts to commit: its objects are staged, its partial
    marks are not. -/
def committing (r staged : Repo) : Repo :=
  { r with partialCommits := staged.partialCommits, trace := staged.trace }

/-- **What a transaction leaves behind** when it is interrupted or fails. -/
inductive LeftBehind {α : Type} (body : RepoM α) (r : Repo) : Repo → Prop where
  /-- After some of the operations of the body, or all of them. -/
  | running {events all : List RepoEvent} (hall : (finalState (body r)).trace = r.trace ++ all)
      (hpre : events <+: all) : LeftBehind body r
        { r with partialCommits := replayMarks r.partialCommits events
                 trace := r.trace ++ events }
  /-- With some of the staged objects in place. -/
  | committing {a : α} {staged x : Repo} (hbody : body r = .ok a staged)
      (hpub : Relation.ReflTransGen (Publish staged) (committing r staged) x) : LeftBehind body r x
  /-- Committed. -/
  | committed {a : α} {staged : Repo} (hbody : body r = .ok a staged) : LeftBehind body r staged

/-- A commit that is stored and not marked as partial is complete. -/
def SoundAt (r : Repo) (c : Checksum) : Prop :=
  ∀ commit, r.commits[c]? = some commit → c ∉ r.partialCommits → r.Complete commit

/-- No commit looks complete that is not. -/
def AllSound (r : Repo) : Prop := ∀ c, SoundAt r c

-- ── The two paths ─────────────────────────────────────────────────────────────

section Paths

variable (lib : Libostree)

/-- The transaction for the commit layer. -/
def commitLayerBody (remote : Option String) (writeRefs : Bool) (targetRef : String)
    (blob : Stream) : RepoM Checksum := do
  let commit ← importTarBody lib blob remote
  if writeRefs then Repo.setRef targetRef (some commit) else pure ()
  Repo.markCommitPartial commit false
  pure commit

theorem importCommitLayer_eq (remote : Option String) (writeRefs : Bool) (targetRef : String)
    (blob : Stream) : importCommitLayer lib remote writeRefs targetRef blob
      = Repo.autoTransaction (commitLayerBody lib remote writeRefs targetRef blob) := rfl

end Paths

/-- The two paths by which a commit is imported. -/
inductive ImportPath where
  | importTar
  | commitLayer (writeRefs : Bool) (targetRef : String)

/-- An attempt to import a commit. -/
structure Attempt where
  path : ImportPath
  remote : Option String
  stream : Stream

/-- What an attempt leaves behind when it is interrupted, fails, or is done. -/
inductive Leaves (lib : Libostree) (r : Repo) : Attempt → Repo → Prop where
  | importTar {remote : Option String} {s : Stream} {x : Repo}
      (h : LeftBehind (importTarBody lib s remote) r x) : Leaves lib r ⟨.importTar, remote, s⟩ x
  /-- After `import_tar` has removed the partial mark. -/
  | imported {remote : Option String} {s : Stream} {c : Checksum} {x : Repo}
      (h : Tar.importTar lib s remote r = .ok c x) : Leaves lib r ⟨.importTar, remote, s⟩ x
  | commitLayer {remote : Option String} {s : Stream} {writeRefs : Bool} {targetRef : String}
      {x : Repo} (h : LeftBehind (commitLayerBody lib remote writeRefs targetRef s) r x) :
      Leaves lib r ⟨.commitLayer writeRefs targetRef, remote, s⟩ x

/-- The path removes the mark after the transaction, or the transaction fails, or the commit has
    nothing left to import: what it reaches was in the repository before. -/
def Safe (lib : Libostree) (a : Attempt) (r : Repo) (c : Checksum) (commit : Commit) : Prop :=
  a.path = .importTar ∨ (∀ out r', importTarBody lib a.stream a.remote r ≠ .ok out r') ∨
    r.Complete (r.commits[c]?.getD commit)

-- ── The marks of an import ────────────────────────────────────────────────────

/-- The events mark no commit but one, and remove no mark. -/
def OnlyMarks (c : Checksum) (events : List RepoEvent) : Prop :=
  ∀ k b, .markedPartial k b ∈ events → k = c ∧ b = true

theorem OnlyMarks.append {c : Checksum} {xs ys : List RepoEvent} (hx : OnlyMarks c xs)
    (hy : OnlyMarks c ys) : OnlyMarks c (xs ++ ys) := by
  intro k b h
  rcases List.mem_append.mp h with h | h
  · exact hx k b h
  · exact hy k b h

theorem OnlyMarks.of_prefix {c : Checksum} {xs ys : List RepoEvent} (h : OnlyMarks c ys)
    (hpre : xs <+: ys) : OnlyMarks c xs :=
  fun k b hk => h k b (hpre.subset hk)

theorem replayMarks_append (m : Finset Checksum) (xs ys : List RepoEvent) :
    replayMarks m (xs ++ ys) = replayMarks (replayMarks m xs) ys :=
  List.foldl_append

/-- Such events leave the marks of other commits alone. -/
theorem replayMarks_onlyMarks {c : Checksum} {events : List RepoEvent} (h : OnlyMarks c events)
    (m : Finset Checksum) : m ⊆ replayMarks m events ∧ replayMarks m events ⊆ insert c m := by
  induction events generalizing m with
  | nil => exact ⟨Finset.Subset.refl m, Finset.subset_insert c m⟩
  | cons e events ih =>
      have hrest : OnlyMarks c events := fun k b hk => h k b (List.mem_cons_of_mem e hk)
      have hstep : m ⊆ applyMark m e ∧ applyMark m e ⊆ insert c m := by
        cases e with
        | markedPartial k b =>
            obtain ⟨rfl, rfl⟩ := h k b (List.mem_cons_self ..)
            exact ⟨Finset.subset_insert k m, Finset.Subset.refl _⟩
        | accepted remote x y => exact ⟨Finset.Subset.refl m, Finset.subset_insert c m⟩
        | wrote ty x => exact ⟨Finset.Subset.refl m, Finset.subset_insert c m⟩
      obtain ⟨hlow, hhigh⟩ := ih hrest (applyMark m e)
      refine ⟨hstep.1.trans hlow, hhigh.trans ?_⟩
      intro x hx
      rcases Finset.mem_insert.mp hx with rfl | hx
      · exact Finset.mem_insert_self x m
      · exact hstep.2 hx

/-- What an import of a commit does, error or not: no object goes away, and the only marks it
    sets are for that commit. -/
structure Advances (c : Checksum) (r r' : Repo) : Prop where
  keeps : r.toObjects.Keeps r'.toObjects
  trace : ∃ events, r'.trace = r.trace ++ events ∧
    r'.partialCommits = replayMarks r.partialCommits events ∧ OnlyMarks c events

section Advances

variable {lib : Libostree} {c : Checksum}

theorem Advances.refl (r : Repo) : Advances c r r :=
  ⟨Objects.Keeps.refl _, [], (List.append_nil _).symm, rfl, fun _ _ h => absurd h List.not_mem_nil⟩

theorem Advances.trans {r₁ r₂ r₃ : Repo} (h : Advances c r₁ r₂) (h' : Advances c r₂ r₃) :
    Advances c r₁ r₃ := by
  obtain ⟨xs, htrace, hmarks, honly⟩ := h.trace
  obtain ⟨ys, htrace', hmarks', honly'⟩ := h'.trace
  refine ⟨h.keeps.trans h'.keeps, xs ++ ys, ?_, ?_, honly.append honly'⟩
  · rw [htrace', htrace, List.append_assoc]
  · rw [hmarks', hmarks, replayMarks_append]

/-- A write of an object, or of detached metadata. -/
theorem Advances.wrote {r r' : Repo} {ty : ObjectType} {k : Checksum}
    (hkeeps : r.toObjects.Keeps r'.toObjects) (htrace : r'.trace = r.trace ++ [.wrote ty k])
    (hmarks : r'.partialCommits = r.partialCommits) : Advances c r r' := by
  refine ⟨hkeeps, [.wrote ty k], htrace, hmarks, ?_⟩
  intro k b h
  cases List.mem_singleton.mp h

/-- Writes of objects leave the marks alone. -/
theorem replayMarks_writesOther {events : List RepoEvent} (h : ∀ e ∈ events, writesOther e = true)
    (m : Finset Checksum) : replayMarks m events = m := by
  induction events with
  | nil => rfl
  | cons e events ih =>
      have hrest := ih (fun e' he' => h e' (List.mem_cons_of_mem e he'))
      cases e with
      | markedPartial k b => exact absurd (h _ (List.mem_cons_self ..)) (by simp [writesOther])
      | accepted remote x y => exact absurd (h _ (List.mem_cons_self ..)) (by simp [writesOther])
      | wrote ty k => exact hrest

/-- Later entries of a stream. -/
theorem Advances.of_harmless {r r' : Repo} (h : Harmless r r') : Advances c r r' := by
  obtain ⟨events, htrace, hother⟩ := h.trace
  refine ⟨h.keeps, events, htrace, ?_, ?_⟩
  · rw [h.partialCommits, replayMarks_writesOther hother]
  · intro k b hk
    exact absurd (hother _ hk) (by simp [writesOther])

/-- No mark is removed. -/
theorem Advances.marks {r r' : Repo} (h : Advances c r r') :
    r.partialCommits ⊆ r'.partialCommits ∧ r'.partialCommits ⊆ insert c r.partialCommits := by
  obtain ⟨events, _, hmarks, honly⟩ := h.trace
  rw [hmarks]
  exact replayMarks_onlyMarks honly _

/-- Every write of an import advances it. -/
theorem importFrame_advances (c : Checksum) : ImportFrame c (fun _ => True) (Advances c) where
  refl := Advances.refl
  trans _ _ _ h h' := h.trans h'
  harmless _ _ h := .of_harmless h
  marked r := by
    refine ⟨Objects.Keeps.refl _, [.markedPartial c true], rfl, rfl, ?_⟩
    intro k b h
    cases List.mem_singleton.mp h
    exact ⟨rfl, rfl⟩
  commit _ _ := .wrote (Objects.Keeps.insert_commit _ _ _) rfl rfl
  commitmeta _ _ _ := .wrote (Objects.Keeps.refl _) rfl rfl
  accepted r remote x y := by
    refine ⟨Objects.Keeps.refl _, [.accepted remote x y], rfl, rfl, ?_⟩
    intro k b h
    cases List.mem_singleton.mp h

theorem writePartialCommit_marks {commit : Commit} {imp imp' : Importer} {u : Unit}
    (h : writePartialCommit lib c commit imp = .ok u imp') : c ∈ imp'.repo.partialCommits := by
  obtain ⟨_, r₁, hmark, h₁⟩ := onRepo_bind_ok h
  cases hmark
  obtain ⟨_, r₂, hwrite, h₂⟩ := onRepo_bind_ok h₁
  obtain ⟨_, _, rfl⟩ := Repo.writeCommit_ok hwrite
  rw [assertEq_ok h₂]
  exact Finset.mem_insert_self _ _

/-- A head that was handled has marked its commit. -/
theorem importHead_marks {commit : Commit} {e : Entry} {p : Path} {next : Checksum × ObjectType}
    {imp imp' : Importer} {u : Unit} (h : importHead lib c commit e p next imp = .ok u imp') :
    c ∈ imp'.repo.partialCommits := by
  obtain ⟨i, s, hget, h₁⟩ := bind_ok h
  cases hget
  cases hremote : imp.remote with
  | none =>
      rw [hremote] at h₁
      obtain ⟨_, s, hwrite, h₂⟩ := bind_ok h₁
      have hstep : OnRepo (Advances c) s (finalState (importNextObject lib c e p s)) :=
        (importFrame_advances c).importNextObject trivial p s
      rw [h₂] at hstep
      exact hstep.marks.1 (writePartialCommit_marks hwrite)
  | some remote =>
      rw [hremote] at h₁
      rcases importVerified_cases remote c commit e next.1 next.2 imp with
        ⟨stop, hstop⟩ | ⟨d, _, _, _, _, hrun⟩
      · have hbad := h₁.symm.trans hstop
        cases hbad
      · obtain ⟨_, s, hwrite, h₂⟩ := bind_ok (hrun.symm.trans h₁)
        obtain ⟨r, hr, rfl⟩ := onRepo_ok h₂
        cases hr
        have hmarked : c ∈ s.repo.partialCommits := writePartialCommit_marks hwrite
        exact hmarked

end Advances

-- ── The transaction of `import_tar` ───────────────────────────────────────────

section Body

variable {lib : Libostree} {s : Stream} {remote : Option String} {c : Checksum} {commit : Commit}

/-- A commit that was imported is marked. -/
theorem importCommit_marks (hstream : streamCommit lib s = some (c, commit)) {r : Repo}
    {imp : Importer} {u : Unit} (h : importCommit lib s (.newForCommit remote r) = .ok u imp) :
    c ∈ imp.repo.partialCommits := by
  rcases @importCommit_head_cases lib s with ⟨stop, hstop⟩ | ⟨commitEnt, commitPath, nextEnt,
    nextPath, rest, next, checksum, commit', hents, hnext, hparse, hcommit, hrun⟩
  · rw [hstop] at h
    cases h
  · have hhead := streamCommit_of_head hents hparse hcommit
    rw [hstream] at hhead
    obtain ⟨rfl, rfl⟩ := Prod.mk.inj (Option.some.inj hhead)
    rw [hrun] at h
    obtain ⟨_, s₁, hhead, h₁⟩ := bind_ok h
    obtain ⟨_, s₂, hdata, h₂⟩ := bind_ok h₁
    cases hdata
    have hstep : Steps (OnRepo (Advances c)) (importObjectsImpl lib rest) :=
      (importFrame_advances c).of_harmless (importObjectsImpl_harmless rest)
    have hrest := hstep { s₁ with data := .commit (some c) }
    rw [h₂] at hrest
    have hmarked : c ∈ s₁.repo.partialCommits := importHead_marks hhead
    exact hrest.marks.1 hmarked

/-- The transaction, error or not. -/
theorem importTarBody_advances (hstream : streamCommit lib s = some (c, commit))
    (remote : Option String) (r : Repo) :
    Advances c r (finalState (importTarBody lib s remote r)) := by
  refine ImportFrame.importTarBody Advances.refl (fun c' commit' hstream' => ?_) (fun _ _ => trivial)
    remote r
  rw [hstream] at hstream'
  obtain ⟨rfl, rfl⟩ := Prod.mk.inj (Option.some.inj hstream')
  exact importFrame_advances c

/-- The transaction, done: the commit is staged with what the stream offers, and marked. -/
structure Staged (lib : Libostree) (s : Stream) (c : Checksum) (commit : Commit) (r r' : Repo) :
    Prop where
  advances : Advances c r r'
  marked : c ∈ r'.partialCommits
  commits : r'.commits = r.commits.insertIfNew c commit
  complete : (∃ commit, r'.commits[c]? = some commit ∧ r'.Complete commit) ↔ Supplied lib s r c

theorem importTarBody_ok (hstream : streamCommit lib s = some (c, commit)) {r r' : Repo}
    {out : Checksum} (h : importTarBody lib s remote r = .ok out r') :
    out = c ∧ Staged lib s c commit r r' := by
  have hadvances := importTarBody_advances hstream remote r
  rw [h] at hadvances
  obtain ⟨imp, hrun, rfl⟩ := withImporter_eq_ok h
  obtain ⟨_, imp', himport, hfinish⟩ := bind_ok hrun
  obtain ⟨hdata, rfl⟩ := finishImportCommit_ok_iff.mp hfinish
  obtain ⟨c', commit', r₁, hstream', hdata', hcommit, hadds⟩ := importCommit_adds himport
  have hsame := hstream'
  rw [hstream] at hsame
  obtain ⟨rfl, rfl⟩ := Prod.mk.inj (Option.some.inj hsame)
  rw [hdata] at hdata'
  injection hdata' with hout
  injection hout with hout
  refine ⟨hout, hadvances, importCommit_marks hstream himport, ?_,
    complete_iff_of_adds hstream' hcommit hadds⟩
  rw [hadds.commits, hcommit.commits]

end Body

-- ── Soundness ─────────────────────────────────────────────────────────────────

section Sound

variable {lib : Libostree} {s : Stream} {remote : Option String} {r x : Repo} {c k : Checksum}
  {commit : Commit}

/-- A commit stays sound as objects arrive, unless it is a new one or loses its mark. -/
theorem SoundAt.grow (h : SoundAt r k) (hkeeps : r.toObjects.Keeps x.toObjects)
    (hcommits : ∀ v, x.commits[k]? = some v → r.commits[k]? = some v)
    (hmarks : k ∈ r.partialCommits → k ∈ x.partialCommits) : SoundAt x k := by
  intro commit hcommit hmark
  exact (h commit (hcommits commit hcommit) (fun hk => hmark (hmarks hk))).mono hkeeps

/-- While a transaction is committed, the repository is between the one it started from and
    the staged one. -/
structure Between (r staged x : Repo) : Prop where
  keeps : r.toObjects.Keeps x.toObjects
  commits : ∀ (k : Checksum) v, x.commits[k]? = some v →
    r.commits[k]? = some v ∨ staged.commits[k]? = some v
  partialCommits : x.partialCommits = staged.partialCommits

theorem Between.publish {staged y : Repo} (h : Between r staged x) (hp : Publish staged x y) :
    Between r staged y := by
  cases hp with
  | @commit c v hv =>
      refine ⟨h.keeps.trans (Objects.Keeps.insert_commit _ c v), ?_, h.partialCommits⟩
      intro k w hw
      have hlookup : (x.commits.insertIfNew c v)[k]? = some w := hw
      rw [ExtTreeMap.lookup_insertIfNew] at hlookup
      split at hlookup
      · next hck =>
          subst hck
          cases hx : x.commits[c]? with
          | none =>
              rw [hx] at hlookup
              exact .inr (hv.trans hlookup)
          | some w' =>
              rw [hx] at hlookup
              exact h.commits c w (hx.trans hlookup)
      · rw [Option.or_none] at hlookup
        exact h.commits k w hlookup
  | dirtree hv => exact ⟨h.keeps.trans (Objects.Keeps.insert_dirtree _ _ _), h.commits, h.partialCommits⟩
  | dirmeta hv => exact ⟨h.keeps.trans (Objects.Keeps.insert_dirmeta _ _ _), h.commits, h.partialCommits⟩
  | file hv => exact ⟨h.keeps.trans (Objects.Keeps.insert_file _ _ _), h.commits, h.partialCommits⟩
  | commitmeta hv => exact ⟨h.keeps, h.commits, h.partialCommits⟩
  | ref hall hv => exact ⟨h.keeps, h.commits, h.partialCommits⟩

theorem between_of_publish {staged : Repo}
    (h : Relation.ReflTransGen (Publish staged) (committing r staged) x) : Between r staged x := by
  induction h with
  | refl => exact ⟨Objects.Keeps.refl _, fun _ _ hv => .inl hv, rfl⟩
  | tail _ hp ih => exact ih.publish hp

/-- A transaction is interrupted in its body, or on the way to what it has staged. -/
theorem leftBehind_cases {α : Type} {body : RepoM α}
    (hkeeps : r.toObjects.Keeps (finalState (body r)).toObjects) (h : LeftBehind body r x) :
    (∃ events all, (finalState (body r)).trace = r.trace ++ all ∧ events <+: all ∧
      x.toObjects = r.toObjects ∧ x.partialCommits = replayMarks r.partialCommits events) ∨
    ∃ a staged, body r = .ok a staged ∧ Between r staged x := by
  cases h with
  | @running events all hall hpre => exact .inl ⟨events, all, hall, hpre, rfl, rfl⟩
  | @committing a staged _ hbody hpub => exact .inr ⟨a, staged, hbody, between_of_publish hpub⟩
  | @committed a staged hbody =>
      rw [hbody] at hkeeps
      exact .inr ⟨a, _, hbody, hkeeps, fun _ _ hv => .inr hv, rfl⟩

/-- The commits on the way to a staged import. -/
theorem Between.commits_eq {staged : Repo} (h : Between r staged x)
    (hcommits : staged.commits = r.commits.insertIfNew c commit) {v : Commit}
    (hv : x.commits[k]? = some v) :
    (k ≠ c → r.commits[k]? = some v) ∧ (k = c → v = r.commits[c]?.getD commit) := by
  have hlookup := h.commits k v hv
  rw [hcommits, ExtTreeMap.lookup_insertIfNew] at hlookup
  constructor
  · intro hk
    rw [if_neg (Ne.symm hk), Option.or_none] at hlookup
    exact hlookup.elim id id
  · intro hk
    subst hk
    rw [if_pos rfl] at hlookup
    rcases hlookup with hlookup | hlookup
    · rw [hlookup]
      rfl
    · cases hr : r.commits[k]? with
      | none =>
          rw [hr] at hlookup
          exact (Option.some.inj hlookup).symm
      | some w =>
          rw [hr] at hlookup
          exact (Option.some.inj hlookup).symm

/-- In the middle of an import that removes no mark. -/
theorem sound_running {events all : List RepoEvent} (hr : SoundAt r k) (hadvances : Advances c r x)
    {y : Repo} (hall : x.trace = r.trace ++ all) (hpre : events <+: all)
    (hobjects : y.toObjects = r.toObjects)
    (hmarks : y.partialCommits = replayMarks r.partialCommits events) : SoundAt y k := by
  obtain ⟨events', htrace, _, honly⟩ := hadvances.trace
  obtain rfl : events' = all := List.append_cancel_left (htrace.symm.trans hall)
  refine hr.grow (hobjects ▸ Objects.Keeps.refl _) (fun v hv => ?_) (fun hk => ?_)
  · rw [hobjects] at hv
    exact hv
  · rw [hmarks]
    exact (replayMarks_onlyMarks (honly.of_prefix hpre) r.partialCommits).1 hk

/-- **The transaction of `import_tar`** leaves no commit unsound behind: its own is marked. -/
theorem importTarBody_sound (hstream : streamCommit lib s = some (c, commit)) (hr : SoundAt r k)
    (h : LeftBehind (importTarBody lib s remote) r x) : SoundAt x k := by
  have hadvances := importTarBody_advances hstream remote r
  rcases leftBehind_cases hadvances.keeps h with
    ⟨events, all, hall, hpre, hobjects, hmarks⟩ | ⟨a, staged, hbody, hbetween⟩
  · exact sound_running hr hadvances hall hpre hobjects hmarks
  obtain ⟨rfl, hstaged⟩ := importTarBody_ok hstream hbody
  by_cases hk : k = a
  · subst hk
    intro v _ hmark
    rw [hbetween.partialCommits] at hmark
    exact absurd hstaged.marked hmark
  · refine hr.grow hbetween.keeps (fun v hv => (hbetween.commits_eq hstaged.commits hv).1 hk) ?_
    intro hmark
    rw [hbetween.partialCommits]
    exact hstaged.advances.marks.1 hmark

theorem importTar_ok {out : Checksum} (h : Tar.importTar lib s remote r = .ok out x) :
    ∃ r₁, importTarBody lib s remote r = .ok out r₁ ∧
      x = finalState (Repo.markCommitPartial out false r₁) := by
  rw [importTar_eq] at h
  obtain ⟨out', r₁, htxn, h₁⟩ := bind_ok h
  obtain ⟨_, r₂, hmark, h₂⟩ := bind_ok h₁
  cases hmark
  cases h₂
  refine ⟨r₁, ?_, rfl⟩
  rw [Repo.autoTransaction] at htxn
  cases hrun : importTarBody lib s remote r with
  | ok a r' =>
      rw [hrun] at htxn
      exact htxn
  | error e r' =>
      rw [hrun] at htxn
      cases htxn

/-- `import_tar`, done. -/
theorem importTar_sound (hstream : streamCommit lib s = some (c, commit))
    (hsupplied : Supplied lib s r c) (hr : SoundAt r k) {out : Checksum}
    (h : Tar.importTar lib s remote r = .ok out x) : SoundAt x k := by
  obtain ⟨r₁, hbody, rfl⟩ := importTar_ok h
  obtain ⟨rfl, hstaged⟩ := importTarBody_ok hstream hbody
  have hbetween : Between r r₁ r₁ := ⟨hstaged.advances.keeps, fun _ _ hv => .inr hv, rfl⟩
  by_cases hk : k = out
  · subst hk
    intro v hv _
    obtain ⟨v', hv', hcomplete⟩ := hstaged.complete.mpr hsupplied
    obtain rfl := Option.some.inj (hv.symm.trans hv')
    exact hcomplete
  · refine hr.grow hstaged.advances.keeps
      (fun v hv => (hbetween.commits_eq hstaged.commits hv).1 hk) ?_
    intro hmark
    exact Finset.mem_erase.mpr ⟨hk, hstaged.advances.marks.1 hmark⟩

-- ── The commit layer ──────────────────────────────────────────────────────────

variable {writeRefs : Bool} {targetRef : String}

/-- The transaction for the commit layer goes on where the one of `import_tar` ends, and removes
    the mark. -/
theorem commitLayerBody_of_ok {out : Checksum} {r₁ : Repo}
    (h : importTarBody lib s remote r = .ok out r₁) (writeRefs : Bool) (targetRef : String) :
    ∃ staged, commitLayerBody lib remote writeRefs targetRef s r = .ok out staged ∧
      staged.toObjects = r₁.toObjects ∧ staged.partialCommits = r₁.partialCommits.erase out ∧
      staged.trace = r₁.trace ++ [.markedPartial out false] := by
  rw [commitLayerBody, bind_of_ok h]
  cases writeRefs with
  | true => exact ⟨_, rfl, rfl, rfl, rfl⟩
  | false => exact ⟨_, rfl, rfl, rfl, rfl⟩

/-- The marks while the commit layer is imported: those of other commits stay. -/
theorem mem_replayMarks_layer {events all : List RepoEvent} (honly : OnlyMarks c all)
    (hpre : events <+: all ++ [.markedPartial c false]) (hk : k ≠ c)
    (hmark : k ∈ r.partialCommits) : k ∈ replayMarks r.partialCommits events := by
  rcases List.prefix_concat_iff.mp hpre with rfl | hpre
  · rw [replayMarks_append]
    exact Finset.mem_erase.mpr ⟨hk, (replayMarks_onlyMarks honly _).1 hmark⟩
  · exact (replayMarks_onlyMarks (honly.of_prefix hpre) _).1 hmark

/-- **The transaction for the commit layer** leaves no commit unsound behind if it fails. -/
theorem commitLayerBody_sound_of_error (hstream : streamCommit lib s = some (c, commit))
    (hr : SoundAt r k) (hfail : ∀ out r', importTarBody lib s remote r ≠ .ok out r')
    (h : LeftBehind (commitLayerBody lib remote writeRefs targetRef s) r x) : SoundAt x k := by
  have hadvances := importTarBody_advances hstream remote r
  cases hrun : importTarBody lib s remote r with
  | ok out r' => exact absurd hrun (hfail out r')
  | error e r' =>
      have hlayer : commitLayerBody lib remote writeRefs targetRef s r = .error e r' :=
        bind_of_error hrun
      rw [hrun] at hadvances
      have hkeeps : r.toObjects.Keeps
          (finalState (commitLayerBody lib remote writeRefs targetRef s r)).toObjects := by
        rw [hlayer]
        exact hadvances.keeps
      rcases leftBehind_cases hkeeps h with
        ⟨events, all, hall, hpre, hobjects, hmarks⟩ | ⟨a, staged, hbody, _⟩
      · rw [hlayer] at hall
        exact sound_running hr hadvances hall hpre hobjects hmarks
      · rw [hlayer] at hbody
        cases hbody

/-- It leaves no commit unsound behind either if there was nothing left to import. -/
theorem commitLayerBody_sound_of_complete (hstream : streamCommit lib s = some (c, commit))
    (hr : SoundAt r k) (hcomplete : r.Complete (r.commits[c]?.getD commit))
    (h : LeftBehind (commitLayerBody lib remote writeRefs targetRef s) r x) : SoundAt x k := by
  cases hrun : importTarBody lib s remote r with
  | error e r' =>
      refine commitLayerBody_sound_of_error hstream hr (fun out r'' hok => ?_) h
      rw [hrun] at hok
      cases hok
  | ok out r₁ =>
  obtain ⟨rfl, hstaged⟩ := importTarBody_ok hstream hrun
  obtain ⟨staged, hlayer, hobjects, hmarks, htrace⟩ :=
    commitLayerBody_of_ok hrun writeRefs targetRef
  have hkeeps : r.toObjects.Keeps
      (finalState (commitLayerBody lib remote writeRefs targetRef s r)).toObjects := by
    rw [hlayer, finalState_ok, hobjects]
    exact hstaged.advances.keeps
  rcases leftBehind_cases hkeeps h with
    ⟨events, all, hall, hpre, hsame, hreplay⟩ | ⟨a, staged', hbody, hbetween⟩
  · -- in the body, the objects are those from before
    obtain ⟨events', htrace', _, honly⟩ := hstaged.advances.trace
    rw [hlayer, finalState_ok, htrace, htrace', List.append_assoc] at hall
    obtain rfl := List.append_cancel_left hall
    by_cases hk : k = out
    · subst hk
      intro v hv _
      rw [hsame] at hv
      rw [hv] at hcomplete
      rw [hsame]
      exact hcomplete
    · refine hr.grow (hsame ▸ Objects.Keeps.refl _) (fun v hv => ?_) (fun hmark => ?_)
      · rw [hsame] at hv
        exact hv
      · rw [hreplay]
        exact mem_replayMarks_layer honly hpre hk hmark
  · rw [hlayer] at hbody
    obtain ⟨rfl, rfl⟩ := EStateM.Result.ok.inj hbody
    have hcommits : staged.commits = r.commits.insertIfNew out commit := by
      rw [hobjects, hstaged.commits]
    by_cases hk : k = out
    · subst hk
      intro v hv _
      rw [(hbetween.commits_eq hcommits hv).2 rfl]
      exact hcomplete.mono hbetween.keeps
    · refine hr.grow hbetween.keeps (fun v hv => (hbetween.commits_eq hcommits hv).1 hk) ?_
      intro hmark
      rw [hbetween.partialCommits, hmarks]
      exact Finset.mem_erase.mpr ⟨hk, hstaged.advances.marks.1 hmark⟩

/-- **If something is left to import**, the commit can arrive first, without its mark. -/
theorem complete_of_commitLayer_sound (hstream : streamCommit lib s = some (c, commit))
    {out : Checksum} {r₁ : Repo} (hrun : importTarBody lib s remote r = .ok out r₁)
    (writeRefs : Bool) (targetRef : String)
    (hsound : ∀ x, LeftBehind (commitLayerBody lib remote writeRefs targetRef s) r x → SoundAt x c) :
    r.Complete (r.commits[c]?.getD commit) := by
  obtain ⟨rfl, hstaged⟩ := importTarBody_ok hstream hrun
  obtain ⟨staged, hlayer, hobjects, hmarks, _⟩ :=
    commitLayerBody_of_ok hrun writeRefs targetRef
  let v := r.commits[out]?.getD commit
  have hinsert : ∀ w : Commit, (r.commits.insertIfNew out w)[out]? = some (r.commits[out]?.getD w) := by
    intro w
    rw [ExtTreeMap.lookup_insertIfNew, if_pos rfl]
    cases r.commits[out]? <;> rfl
  have hstagedCommit : staged.commits[out]? = some v := by
    rw [hobjects, hstaged.commits]
    exact hinsert commit
  let x : Repo := { committing r staged with commits := r.commits.insertIfNew out v }
  have hpublish : Publish staged (committing r staged) x := .commit hstagedCommit
  have hleft := LeftBehind.committing hlayer (.single hpublish)
  have hcommit : x.commits[out]? = some v := by
    show (r.commits.insertIfNew out v)[out]? = some v
    rw [hinsert]
    show some (r.commits[out]?.getD (r.commits[out]?.getD commit)) = some (r.commits[out]?.getD commit)
    cases r.commits[out]? <;> rfl
  have hmark : out ∉ x.partialCommits := by
    show out ∉ staged.partialCommits
    rw [hmarks]
    exact Finset.notMem_erase out _
  have hsame : x.Complete v ↔ r.Complete v := Objects.complete_congr rfl rfl rfl
  exact hsame.mp (hsound x hleft v hcommit hmark)

/-- Whatever is safe leaves no commit unsound behind. -/
theorem leaves_soundAt {a : Attempt} (hstream : streamCommit lib a.stream = some (c, commit))
    (hsupplied : Supplied lib a.stream r c) (hsafe : Safe lib a r c commit) (hr : SoundAt r k)
    (h : Leaves lib r a x) : SoundAt x k := by
  cases h with
  | importTar h => exact importTarBody_sound hstream hr h
  | imported h => exact importTar_sound hstream hsupplied hr h
  | commitLayer h =>
      rcases hsafe with hpath | hfail | hcomplete
      · cases hpath
      · exact commitLayerBody_sound_of_error hstream hr hfail h
      · exact commitLayerBody_sound_of_complete hstream hr hcomplete h

/-- What an attempt leaves behind before it has done anything. -/
theorem leaves_start {a : Attempt} (hstream : streamCommit lib a.stream = some (c, commit)) (r : Repo) :
    Leaves lib r a
      { r with partialCommits := replayMarks r.partialCommits [], trace := r.trace ++ [] } := by
  obtain ⟨path, remote, s⟩ := a
  obtain ⟨events, htrace, -, -⟩ := (importTarBody_advances hstream remote r).trace
  cases path with
  | importTar => exact .importTar (.running htrace List.nil_prefix)
  | commitLayer writeRefs targetRef =>
      cases hrun : importTarBody lib s remote r with
      | ok out r₁ =>
          obtain ⟨staged, hlayer, -, -, hafter⟩ := commitLayerBody_of_ok hrun writeRefs targetRef
          rw [hrun, finalState_ok] at htrace
          have hall : (finalState (commitLayerBody lib remote writeRefs targetRef s r)).trace
              = r.trace ++ (events ++ [.markedPartial out false]) := by
            rw [hlayer, finalState_ok, hafter, htrace, List.append_assoc]
          exact .commitLayer (.running hall List.nil_prefix)
      | error e r₁ =>
          have hlayer : commitLayerBody lib remote writeRefs targetRef s r = .error e r₁ :=
            bind_of_error hrun
          rw [hrun, ← hlayer] at htrace
          exact .commitLayer (.running htrace List.nil_prefix)

/-- **An attempt leaves its commit sound behind**, however it ends, exactly when it was sound
    before and the attempt is safe. -/
theorem leaves_sound_iff {a : Attempt} (hstream : streamCommit lib a.stream = some (c, commit))
    (hsupplied : Supplied lib a.stream r c) :
    (∀ x, Leaves lib r a x → SoundAt x c) ↔ SoundAt r c ∧ Safe lib a r c commit := by
  constructor
  · intro hsound
    refine ⟨?_, ?_⟩
    · intro v hv hmark
      exact hsound _ (leaves_start hstream r) v hv hmark
    · obtain ⟨path, remote, s⟩ := a
      cases path with
      | importTar => exact .inl rfl
      | commitLayer writeRefs targetRef =>
          cases hrun : importTarBody lib s remote r with
          | ok out r₁ =>
              refine .inr (.inr (complete_of_commitLayer_sound hstream hrun writeRefs targetRef ?_))
              intro x hx
              exact hsound x (.commitLayer hx)
          | error e r₁ =>
              refine .inr (.inl fun out r' hok => ?_)
              rw [hrun] at hok
              cases hok
  · rintro ⟨hr, hsafe⟩ x hx
    exact leaves_soundAt hstream hsupplied hsafe hr hx

end Sound

-- ── Runs ──────────────────────────────────────────────────────────────────────

/-- One attempt at an import that is safe, up to where it ended. -/
def Retry (lib : Libostree) (r x : Repo) : Prop :=
  ∃ a c commit, streamCommit lib a.stream = some (c, commit) ∧ Supplied lib a.stream r c ∧
    Safe lib a r c commit ∧ Leaves lib r a x

theorem Retry.sound {lib : Libostree} {r x : Repo} (h : Retry lib r x) (hr : AllSound r) :
    AllSound x := by
  obtain ⟨a, c, commit, hstream, hsupplied, hsafe, hleaves⟩ := h
  intro k
  exact leaves_soundAt hstream hsupplied hsafe (hr k) hleaves

/-- **Crashes and errors leave no commit looking complete while its objects are missing**, as
    far as attempts are safe.  For a stream that supplies everything its commit reaches, every
    state that an attempt leaves behind is sound for the commit if and only if the repository was
    and the attempt is safe: it is an `import_tar`, or it fails in its body, or the repository
    had everything before.  Over any number of safe attempts on a sound repository, each one
    starting from what the one before has left behind, all commits stay sound. -/
theorem interrupted_imports_sound (lib : Libostree) :
    (∀ (a : Attempt) (r : Repo) (c : Checksum) (commit : Commit),
      streamCommit lib a.stream = some (c, commit) → Supplied lib a.stream r c →
      ((∀ x, Leaves lib r a x → SoundAt x c) ↔ SoundAt r c ∧ Safe lib a r c commit)) ∧
    ∀ r x, AllSound r → Relation.ReflTransGen (Retry lib) r x → AllSound x := by
  refine ⟨fun a r c commit hstream hsupplied => leaves_sound_iff hstream hsupplied, ?_⟩
  intro r x hr hrun
  induction hrun with
  | refl => exact hr
  | tail _ hretry ih => exact hretry.sound ih

/-- A repository without commits is sound. -/
theorem allSound_empty : AllSound {} := by
  intro c commit h
  have hnone := ExtTreeMap.lookup_empty (α := Commit) c
  cases hnone.symm.trans h

/-- A small commit, imported into an empty repository: every state left behind is sound, also
    after a crash when only the commit object has arrived and a second attempt. -/
theorem sampleCommit_interrupted : ∃ (es : List Entry) (x y : Repo),
    (∀ x, Leaves sampleTables.lib {} ⟨.importTar, none, es.map .ok⟩ x →
      SoundAt x sampleCommitSum) ∧
    Retry sampleTables.lib {} x ∧ sampleCommitSum ∈ x.commits ∧ x.dirtrees = ∅ ∧
    Retry sampleTables.lib x y ∧ AllSound y := by
  obtain ⟨es, dst, himport, -, hsupplied⟩ := sampleCommit_complete
  obtain ⟨-, commit, r₁, hstream, -, -⟩ := importTar_adds himport
  obtain ⟨staged, hbody, -⟩ := importTar_ok himport
  obtain ⟨-, hstaged⟩ := importTarBody_ok hstream hbody
  have hinsert : ((∅ : ExtTreeMap Checksum Commit).insertIfNew sampleCommitSum
      commit)[sampleCommitSum]? = some commit := by
    rw [ExtTreeMap.lookup_insertIfNew, ExtTreeMap.lookup_empty, if_pos rfl]
    rfl
  have hcommit : staged.commits[sampleCommitSum]? = some commit := by
    rw [hstaged.commits]
    exact hinsert
  let x : Repo := { committing {} staged with
    commits := (∅ : ExtTreeMap Checksum Commit).insertIfNew sampleCommitSum commit }
  have hpublish : Publish staged (committing {} staged) x := .commit hcommit
  have hcrash : Retry sampleTables.lib {} x := ⟨⟨.importTar, none, es.map .ok⟩, sampleCommitSum,
    commit, hstream, hsupplied, .inl rfl, .importTar (.committing hbody (.single hpublish))⟩
  -- the second attempt starts from a repository that has the commit and nothing else
  have hagain : Supplied sampleTables.lib (es.map .ok) x sampleCommitSum := by
    refine supplied_of_stream hsupplied (fun v hv => ?_) (fun k d hd => ?_)
    · rw [hstream, Option.map_some]
      exact hinsert.symm.trans hv
    · exact absurd (ExtTreeMap.mem_iff_lookup.mpr ⟨d, hd⟩) ExtTreeMap.not_mem_empty
  have hretry : Retry sampleTables.lib x _ := ⟨⟨.importTar, none, es.map .ok⟩, sampleCommitSum,
    commit, hstream, hagain, .inl rfl, leaves_start hstream x⟩
  obtain ⟨hattempt, hrun⟩ := interrupted_imports_sound sampleTables.lib
  refine ⟨es, x, _, ?_, hcrash, ExtTreeMap.mem_iff_lookup.mpr ⟨commit, hinsert⟩, rfl, hretry,
    hrun {} _ allSound_empty (.tail (.single hcrash) hretry)⟩
  exact (hattempt ⟨.importTar, none, es.map .ok⟩ {} sampleCommitSum commit hstream hsupplied).mpr
    ⟨allSound_empty _, .inl rfl⟩

/-- **The commit layer can be left behind unmarked and without its tree.** -/
theorem commitLayer_unsound : ∃ (es : List Entry) (commit : Commit) (x : Repo),
    streamCommit sampleTables.lib (es.map .ok) = some (sampleCommitSum, commit) ∧
    Supplied sampleTables.lib (es.map .ok) {} sampleCommitSum ∧ AllSound {} ∧
    Leaves sampleTables.lib {} ⟨.commitLayer true "ostree/container/blob/sha256_3A_abc", none,
      es.map .ok⟩ x ∧ ¬ SoundAt x sampleCommitSum := by
  obtain ⟨es, dst, himport, -, hsupplied⟩ := sampleCommit_complete
  obtain ⟨-, commit, r₁, hstream, -, -⟩ := importTar_adds himport
  obtain ⟨r₂, hbody, -⟩ := importTar_ok himport
  by_contra hnone
  have hcomplete := complete_of_commitLayer_sound hstream hbody true
    "ostree/container/blob/sha256_3A_abc" (fun x hx => by
      by_contra hx'
      exact hnone ⟨es, commit, x, hstream, hsupplied, allSound_empty, .commitLayer hx, hx'⟩)
  -- the empty repository has no root directory to offer
  have hroot := hcomplete .dirMeta _ (.inl ⟨rfl, rfl⟩)
  exact ExtTreeMap.not_mem_empty hroot

end OstreeExt.Store
