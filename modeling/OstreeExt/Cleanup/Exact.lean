import Mathlib.Data.List.Infix
import OstreeExt.Cleanup.Sweep

/-!
# What is left after the clean-up

Where the four paths are directories by their own names, the clean-up leaves of each just what has
to stay (`Spared`), and changes nothing else:

* **`Plain`** — a path that is opened by its own name, if at all: no link is on the way;
* **`cleanPaths_final`** — the run over plain paths that are not inside each other;
* **`prepareOstreeCommitIn_exact`** — the whole, with a second run that changes nothing.

A link at `var` is what the result cannot do without (`linkedVar_loses`): through it `var/tmp` may
be a directory inside `run`, and go with what `run` contains.
-/

namespace OstreeExt.Cleanup

open Exec

variable {host : Host} {rootdev : Nat} {t : Tree} {d p q path : List String} {n : String} {e : Entry}

-- ── One path ──────────────────────────────────────────────────────────────────

section OpenAt

variable {L : View} {rest : List String}

theorem openAt_absent (h : L (d ++ [n]) = none) : host.openAt L d (n :: rest) = .ok none := by
  unfold Host.openAt
  rw [h]

theorem openAt_dir (h : L (d ++ [n]) = some e) (hdir : e.isDir = true) :
    host.openAt L d (n :: rest) = host.openAt L (d ++ [n]) rest := by
  rw [Host.openAt, h]
  simp only [hdir, if_true]

theorem openAt_other (h : L (d ++ [n]) = some e) (hdir : e.isDir = false) :
    host.openAt L d (n :: rest) = host.follow L (d ++ [n]) rest := by
  rw [Host.openAt, h]
  simp [hdir]

end OpenAt

theorem openDirOptional_run {o : Option (List String)} (h : host.openAt t.lookup [] path = .ok o) :
    openDirOptional host path t = .ok o t := by
  unfold openDirOptional
  rw [bind_of_ok (get_run t), h]
  rfl

theorem cleanPath_opened (h : host.openAt t.lookup [] path = .ok (some d)) :
    cleanPath host rootdev path t = cleanSubdir host rootdev d t := by
  unfold cleanPath
  rw [bind_of_ok (openDirOptional_run h)]

theorem cleanPath_absent (h : host.openAt t.lookup [] path = .ok none) :
    cleanPath host rootdev path t = .ok ⟨⟩ t := by
  unfold cleanPath
  rw [bind_of_ok (openDirOptional_run h)]
  rfl

theorem cleanPath_error {s : Stop} (h : host.openAt t.lookup [] path = .error s) :
    cleanPath host rootdev path t = .error s t := by
  unfold cleanPath openDirOptional
  refine bind_of_error ?_
  rw [bind_of_ok (get_run t), h]
  rfl

/-- Where the host refuses nothing, cleaning a directory succeeds. -/
theorem cleanSubdir_ok (hpermits : ∀ L p, host.refuses L p = none) (d : List String) :
    ∃ t', cleanSubdir host rootdev d t = .ok ⟨⟩ t' ∧
      t'.lookup = leftOf t.lookup (Cleaned host rootdev t.lookup d) := by
  have hclears : Clears host (Cleaned host rootdev t.lookup d) _ _ t := cleanSubdir_clears d
  cases hrun : cleanSubdir host rootdev d t with
  | ok u t' => exact ⟨t', rfl, (hclears.1 u t' hrun).1⟩
  | error s t' =>
      obtain ⟨L, p, msg, hrefuses, _⟩ := (hclears.2 s t' hrun).2
      rw [hpermits L p] at hrefuses
      exact absurd hrefuses (by simp)

/-- Cleaning takes out entries inside the directory only. -/
theorem Cleaned.inside {L : View} (h : Cleaned host rootdev L d p) :
    ∃ n x, p = d ++ n :: x := by
  obtain ⟨n, ⟨x, hx, _⟩, _⟩ := h
  exact ⟨n, x, hx⟩

/-- Nothing is inside a directory that is absent. -/
theorem Cleaned.not_absent {L : View} (h : Cleaned host rootdev L d p) (hd : d ≠ [])
    (hp : t.lookup p = some e) : t.lookup d ≠ none := by
  obtain ⟨n, x, rfl⟩ := h.inside
  obtain ⟨b, hb⟩ := FileTree.lookup_above hp hd
  rw [hb]
  simp

/-- Only what is inside the directory counts for what cleaning takes out of it. -/
theorem cleaned_congr {L L' : View} (h : ∀ m, L' (d ++ m) = L (d ++ m)) (p : List String) :
    Cleaned host rootdev L' d p ↔ Cleaned host rootdev L d p := by
  refine exists_congr fun n => ?_
  rw [clearedIn_congr fun x => h (n :: x), SeesMount, SeesMount, h [n]]

-- ── Plain paths ───────────────────────────────────────────────────────────────

/-- On the way to the path there is nothing but directories, as far as there is anything. -/
def Plain (L : View) (path : List String) : Prop :=
  ∀ p, p <+: path → ∀ e, L p = some e → e.isDir = true

/-- A plain path is opened by its own name, or it is absent. -/
theorem openAt_plain (rest : List String) (h : Plain t.lookup (d ++ rest)) :
    host.openAt t.lookup d rest = .ok (some (d ++ rest)) ∨
      (host.openAt t.lookup d rest = .ok none ∧ t.lookup (d ++ rest) = none) := by
  induction rest generalizing d with
  | nil =>
      rw [List.append_nil]
      exact .inl rfl
  | cons n rest ih =>
      rw [List.append_cons d n rest] at h ⊢
      cases hn : t.lookup (d ++ [n]) with
      | none =>
          refine .inr ⟨openAt_absent hn, ?_⟩
          cases hrest : t.lookup (d ++ [n] ++ rest) with
          | none => rfl
          | some e =>
              obtain ⟨e', he'⟩ := FileTree.lookup_above hrest (by simp)
              rw [hn] at he'
              exact absurd he' (by simp)
      | some e =>
          rw [openAt_dir hn (h (d ++ [n]) (List.prefix_append ..) e hn)]
          exact ih h

/-- Two paths of which neither is inside the other. -/
def Apart (p q : List String) : Prop := ¬ p <+: q ∧ ¬ q <+: p

instance (p q : List String) : Decidable (Apart p q) :=
  inferInstanceAs (Decidable (¬ p <+: q ∧ ¬ q <+: p))

/-- What is cleaned in one directory is not inside, nor above, another one apart from it. -/
theorem Cleaned.not_apart {L : View} (hapart : Apart d q) (h : Cleaned host rootdev L d p) :
    ¬ p <+: q ∧ ¬ q <+: p := by
  obtain ⟨n, x, rfl⟩ := h.inside
  refine ⟨fun hp => hapart.1 ((List.prefix_append d _).trans hp), fun hq => ?_⟩
  exact (List.prefix_or_prefix_of_prefix (List.prefix_append d (n :: x)) hq).elim hapart.1 hapart.2

/-- What is cleaned in one directory leaves the ones apart from it as they were, and what is above
    them. -/
theorem lookup_of_apart {t₁ : Tree}
    (ht₁ : t₁.lookup = leftOf t.lookup (Cleaned host rootdev t.lookup path)) (hapart : Apart path d)
    (hp : p <+: d ∨ d <+: p) : t₁.lookup p = t.lookup p := by
  rw [ht₁, leftOf_of_not]
  intro hcleaned
  obtain ⟨h₁, h₂⟩ := hcleaned.not_apart hapart
  exact hp.elim h₁ h₂

theorem Plain.of_apart {t₁ : Tree} (h : Plain t.lookup d)
    (ht₁ : t₁.lookup = leftOf t.lookup (Cleaned host rootdev t.lookup path))
    (hapart : Apart path d) : Plain t₁.lookup d := by
  intro p hp e he
  rw [lookup_of_apart ht₁ hapart (.inl hp)] at he
  exact h p hp e he

/-- **The run over plain paths apart from each other** leaves of each what has to stay. -/
theorem cleanPaths_final (rootdev : Nat) {paths : List (List String)}
    (hpermits : ∀ L p, host.refuses L p = none) (hne : ∀ path ∈ paths, path ≠ [])
    (hplain : ∀ path ∈ paths, Plain t.lookup path) (hapart : paths.Pairwise Apart) :
    ∃ t', forM paths (cleanPath host rootdev) t = .ok ⟨⟩ t' ∧
      t'.lookup = leftOf t.lookup
        (fun k => ∃ path ∈ paths, Cleaned host rootdev t.lookup path k) := by
  induction paths generalizing t with
  | nil => exact ⟨t, rfl, (leftOf_empty fun k _ _ => by simp).symm⟩
  | cons path paths ih =>
      have hhead := hplain path (List.mem_cons_self ..)
      rw [List.pairwise_cons] at hapart
      -- the first path
      have hfirst : ∃ t₁, cleanPath host rootdev path t = .ok ⟨⟩ t₁ ∧
          t₁.lookup = leftOf t.lookup (Cleaned host rootdev t.lookup path) := by
        have hopened : host.openAt t.lookup [] path = .ok (some path) ∨ _ := openAt_plain path hhead
        rcases hopened with hopen | ⟨hopen, habsent⟩
        · rw [cleanPath_opened hopen]
          exact cleanSubdir_ok hpermits path
        · refine ⟨t, cleanPath_absent hopen, (leftOf_empty fun k e hk hcleaned => ?_).symm⟩
          exact hcleaned.not_absent (hne path (List.mem_cons_self ..)) hk habsent
      obtain ⟨t₁, hrun₁, ht₁⟩ := hfirst
      -- the other ones are as they were
      have hbelow : ∀ q ∈ paths, ∀ m, t₁.lookup (q ++ m) = t.lookup (q ++ m) :=
        fun q hq m => lookup_of_apart ht₁ (hapart.1 q hq) (.inr (List.prefix_append ..))
      have hplain₁ : ∀ q ∈ paths, Plain t₁.lookup q :=
        fun q hq => (hplain q (List.mem_cons_of_mem _ hq)).of_apart ht₁ (hapart.1 q hq)
      obtain ⟨t', hrun', ht'⟩ := ih (fun q hq => hne q (List.mem_cons_of_mem _ hq)) hplain₁ hapart.2
      refine ⟨t', ?_, ?_⟩
      · rw [List.forM_cons, bind_of_ok hrun₁]
        exact hrun'
      · rw [ht', ht₁, leftOf_leftOf, ← ht₁]
        refine leftOf_congr fun k _ _ => ?_
        rw [List.exists_mem_cons_iff]
        refine or_congr Iff.rfl (exists_congr fun q => and_congr_right fun hq => ?_)
        exact cleaned_congr (hbelow q hq) k

-- ── The whole run ─────────────────────────────────────────────────────────────

theorem forceCleanPaths_ne_nil : ∀ path ∈ forceCleanPaths, path ≠ [] := by
  decide

theorem forceCleanPaths_apart : forceCleanPaths.Pairwise Apart := by
  decide

/-- Each of the four paths is a directory, or absent, and `var` is no symbolic link. -/
structure Ordinary (t : Tree) : Prop where
  dirs : ∀ d ∈ forceCleanPaths, ∀ e, t.lookup d = some e → e.isDir = true
  var : ∀ e, t.lookup ["var"] = some e → e.isSymlink = false

/-- Where `var` is a directory, or absent, the four paths are plain. -/
theorem Ordinary.plain (h : Ordinary t) (hvar : ∀ e, t.lookup ["var"] = some e → e.isDir = true) :
    ∀ path ∈ forceCleanPaths, Plain t.lookup path := by
  intro path hpath p hp e he
  have hinits : ∀ path ∈ forceCleanPaths, ∀ p ∈ path.inits, p = [] ∨ p = path ∨ p = ["var"] := by
    decide
  rcases hinits path hpath p ((List.mem_inits ..).mpr hp) with rfl | rfl | rfl
  · exact absurd rfl (FileTree.ne_nil_of_lookup he)
  · exact h.dirs p hpath e he
  · exact hvar e he

/-- There a run returns. -/
theorem Ordinary.run_ok (h : Ordinary t) (hpermits : ∀ L p, host.refuses L p = none)
    (hvar : ∀ e, t.lookup ["var"] = some e → e.isDir = true) :
    ∃ t', prepareOstreeCommitIn host t = .ok ⟨⟩ t' ∧
      t'.lookup = leftOf t.lookup
        (fun k => ∃ d ∈ forceCleanPaths, Cleaned host host.rootDev t.lookup d k) :=
  cleanPaths_final host.rootDev hpermits forceCleanPaths_ne_nil (h.plain hvar) forceCleanPaths_apart

/-- Where `var` is something else, a run ends there, with `run` and `tmp` cleaned. -/
theorem Ordinary.run_error (h : Ordinary t) (hpermits : ∀ L p, host.refuses L p = none)
    (hvar : t.lookup ["var"] = some e) (hdir : e.isDir = false) :
    ∃ msg t', prepareOstreeCommitIn host t = .error (.err msg) t' ∧
      t'.lookup = leftOf t.lookup
        (fun k => ∃ d ∈ [["run"], ["tmp"]], Cleaned host host.rootDev t.lookup d k) := by
  have hplain : ∀ path ∈ [["run"], ["tmp"]], Plain t.lookup path := by
    intro path hpath p hp e' he'
    have hinits : ∀ path ∈ [["run"], ["tmp"]], ∀ p ∈ path.inits,
        p = [] ∨ p = path ∧ path ∈ forceCleanPaths := by
      decide
    rcases hinits path hpath p ((List.mem_inits ..).mpr hp) with rfl | ⟨rfl, hpath⟩
    · exact absurd rfl (FileTree.ne_nil_of_lookup he')
    · exact h.dirs p hpath e' he'
  obtain ⟨t', hrun, ht'⟩ :=
    cleanPaths_final host.rootDev hpermits (by decide) hplain (by decide)
  have hvar' : t'.lookup ["var"] = some e := by
    rw [ht', leftOf_of_not, hvar]
    rintro ⟨path, hpath, hcleaned⟩
    have hapart : ∀ path ∈ [["run"], ["tmp"]], Apart path ["var"] := by
      decide
    exact (hcleaned.not_apart (hapart path hpath)).1 List.prefix_rfl
  obtain ⟨msg, hmsg⟩ := host.follow_error t'.lookup ["var"] ["tmp"] e hvar' (h.var e hvar)
  refine ⟨msg, t', ?_, ht'⟩
  show (forM ([["run"], ["tmp"]] ++ [["var", "tmp"], ["var", "cache"]])
    (cleanPath host host.rootDev) : EStateM Stop Tree PUnit) t = _
  rw [forM_append, bind_of_ok hrun, List.forM_cons]
  refine bind_of_error (cleanPath_error ?_)
  rw [openAt_other hvar' hdir]
  exact hmsg

/-- **The final tree of a run**: of the four directories that is gone which does not have to stay. -/
theorem prepareOstreeCommitIn_final (h : Ordinary t) (hpermits : ∀ L p, host.refuses L p = none) :
    (finalState (prepareOstreeCommitIn host t)).lookup = leftOf t.lookup
      (fun k => ∃ d ∈ forceCleanPaths, Cleaned host host.rootDev t.lookup d k) := by
  by_cases hvar : ∀ e, t.lookup ["var"] = some e → e.isDir = true
  · obtain ⟨t', hrun, ht'⟩ := h.run_ok hpermits hvar
    rw [hrun, finalState_ok, ht']
  · obtain ⟨e, hvar⟩ := not_forall.mp hvar
    obtain ⟨hvar, hdir⟩ := Classical.not_imp.mp hvar
    obtain ⟨msg, t', hrun, ht'⟩ := h.run_error hpermits hvar (Bool.eq_false_iff.mpr hdir)
    rw [hrun, finalState_error, ht']
    refine leftOf_congr fun k e' hk => ?_
    have hall : ∀ d ∈ forceCleanPaths, d ∈ [["run"], ["tmp"]] ∨ ["var"] <+: d ∧ d ≠ ["var"] := by
      decide
    constructor
    · rintro ⟨d, hd, hcleaned⟩
      exact ⟨d, List.mem_append_left [["var", "tmp"], ["var", "cache"]] hd, hcleaned⟩
    · rintro ⟨d, hd, hcleaned⟩
      rcases hall d hd with hd' | ⟨⟨x, rfl⟩, hne⟩
      · exact ⟨d, hd', hcleaned⟩
      · -- nothing is inside what is no directory
        obtain ⟨n, y, rfl⟩ := hcleaned.inside
        rw [List.append_assoc] at hk
        obtain ⟨b, hb, hdir'⟩ := FileTree.isDir_above hk (by simp) (by simp)
        rw [hvar] at hb
        injection hb with hb
        exact absurd (hb ▸ hdir') hdir

-- ── What is left, entry by entry ──────────────────────────────────────────────

/-- The entry at `q` in the directory `d`, or a directory above it inside `d`, is on another device
    than the root. -/
def OnForeign (L : View) (rootdev : Nat) (d q : List String) : Prop :=
  ∃ m, m ≠ [] ∧ m <+: q ∧ Foreign L rootdev (d ++ m)

/-- An entry has to stay when it is on another device, or is a directory with something below it
    that is. -/
theorem spared_iff (hq : q ≠ []) (h : t.lookup (d ++ q) = some e) :
    Spared t.lookup rootdev d q ↔ OnForeign t.lookup rootdev d q ∨
      (e.isDir = true ∧ ∃ x e', x ≠ [] ∧ t.lookup (d ++ (q ++ x)) = some e' ∧
        OnForeign t.lookup rootdev d (q ++ x)) := by
  constructor
  · rintro ⟨m, hm, hF, hmq | ⟨x, rfl⟩⟩
    · exact .inl ⟨m, hm, hmq, hF⟩
    · by_cases hx : x = []
      · rw [hx, List.append_nil] at hF
        exact .inl ⟨q, hq, List.prefix_rfl, hF⟩
      · obtain ⟨e', he', _⟩ := id hF
        obtain ⟨b, hb, hdir⟩ := FileTree.isDir_above (by rw [List.append_assoc]; exact he')
          (FileTree.ne_nil_of_lookup h) hx
        rw [h] at hb
        injection hb with hb
        exact .inr ⟨hb ▸ hdir, x, e', hx, he', q ++ x, hm, List.prefix_rfl, hF⟩
  · rintro (⟨m, hm, hmq, hF⟩ | ⟨_, x, e', _, _, m, hm, hmx, hF⟩)
    · exact ⟨m, hm, hF, .inl hmq⟩
    · exact ⟨m, hm, hF, List.prefix_or_prefix_of_prefix hmx (List.prefix_append q x)⟩

/-- No mount of the root's own device is in the tree. -/
def NoBindMounts (host : Host) (t : Tree) : Prop :=
  ∀ p e, t.lookup p = some e → e.mountRoot = true → e.dev ≠ host.rootDev

/-- Without bind mounts, what cleaning takes out of a directory is what does not have to stay. -/
theorem cleaned_iff (hmounts : NoBindMounts host t) (hq : q ≠ []) :
    Cleaned host host.rootDev t.lookup d (d ++ q) ↔ ¬ Spared t.lookup host.rootDev d q := by
  constructor
  · rintro ⟨n, ⟨x, hx, hgoes⟩, _⟩
    rw [List.append_cancel_left hx]
    exact hgoes
  · intro hgoes
    obtain ⟨n, x, rfl⟩ := List.exists_cons_of_ne_nil hq
    refine ⟨n, ⟨x, rfl, hgoes⟩, ?_⟩
    rintro ⟨_, e, he, hmount⟩
    exact hgoes (spared_cons_iff.mpr (.inl ⟨e, he, hmounts _ e he hmount⟩))

/-- The four directories are not inside each other. -/
theorem Cleaned.dir_eq {L : View} {d' : List String} (hd : d ∈ forceCleanPaths)
    (hd' : d' ∈ forceCleanPaths) (h : Cleaned host rootdev L d' (d ++ q)) : d' = d := by
  have hall : ∀ d ∈ forceCleanPaths, ∀ d' ∈ forceCleanPaths, d' = d ∨ Apart d' d := by
    decide
  refine (hall d hd d' hd').resolve_right fun hapart => ?_
  exact (h.not_apart hapart).2 (List.prefix_append d q)

/-- A tree `t'` that is the tree `t` cleaned, no more and no less. -/
structure CleansExactly (host : Host) (t t' : Tree) : Prop where
  /-- Each of the directories that existed still exists, and none has come. -/
  directories : ∀ d ∈ forceCleanPaths, t'.lookup d = t.lookup d
  /-- Below each, an entry remains if and only if it is on another device, or a directory above it
      is, or it is a directory with such an entry below it. -/
  below : ∀ d ∈ forceCleanPaths, ∀ q e, q ≠ [] → t.lookup (d ++ q) = some e →
    (t'.lookup (d ++ q) = some e ↔ OnForeign t.lookup host.rootDev d q ∨
      (e.isDir = true ∧ ∃ x e', x ≠ [] ∧ t.lookup (d ++ (q ++ x)) = some e' ∧
        OnForeign t.lookup host.rootDev d (q ++ x)))
  /-- An entry that does not remain as it was is gone, and none has come. -/
  fewer : ∀ p, t'.lookup p = t.lookup p ∨ t'.lookup p = none
  /-- Everything outside the directories is unchanged. -/
  outside : ∀ p, (∀ d ∈ forceCleanPaths, ∀ q, q ≠ [] → p ≠ d ++ q) → t'.lookup p = t.lookup p
  /-- A second run changes nothing. -/
  again : (finalState (prepareOstreeCommitIn host t')).lookup = t'.lookup

/-- What is left of an ordinary tree is ordinary. -/
theorem Ordinary.within {t' : Tree} {S : List String → Prop} (h : Ordinary t)
    (hw : Within S t.lookup t'.lookup) : Ordinary t' where
  dirs := fun d hd e he => h.dirs d hd e (hw.eq_some he)
  var := fun e he => h.var e (hw.eq_some he)

/-- **The clean-up removes just what it should** from an ordinary tree without bind mounts, when no
    removal fails. -/
theorem prepareOstreeCommitIn_exact (host : Host) (t : Tree) (hmounts : NoBindMounts host t)
    (hordinary : Ordinary t) (hpermits : ∀ L p, host.refuses L p = none) :
    CleansExactly host t (finalState (prepareOstreeCommitIn host t)) := by
  have hfinal := prepareOstreeCommitIn_final hordinary hpermits
  generalize finalState (prepareOstreeCommitIn host t) = t' at hfinal ⊢
  have hw : Within (fun k => ∃ d ∈ forceCleanPaths, Cleaned host host.rootDev t.lookup d k)
      t.lookup t'.lookup := hfinal ▸ within_leftOf
  -- an entry in one of the directories remains when it has to stay
  have hstays : ∀ d ∈ forceCleanPaths, ∀ q e, q ≠ [] → t.lookup (d ++ q) = some e →
      (t'.lookup (d ++ q) = some e ↔ Spared t.lookup host.rootDev d q) := by
    intro d hd q e hq he
    rw [hfinal, leftOf_eq_some_iff, and_iff_left he, ← not_not (a := Spared ..),
      ← cleaned_iff hmounts hq]
    refine not_congr ⟨?_, fun h => ⟨d, hd, h⟩⟩
    rintro ⟨d', hd', h⟩
    exact h.dir_eq hd hd' ▸ h
  refine ⟨?_, ?_, fun p => (hw p).imp_right fun h => h.2, ?_, ?_⟩
  · intro d hd
    refine hw.eq_of_not ?_
    rintro ⟨d', hd', h⟩
    have heq := (Cleaned.dir_eq (q := []) hd hd' (by rw [List.append_nil]; exact h))
    obtain ⟨n, x, hx⟩ := h.inside
    rw [heq] at hx
    exact absurd (List.append_right_eq_self.mp hx.symm) (by simp)
  · intro d hd q e hq he
    rw [hstays d hd q e hq he, spared_iff hq he]
  · intro p hp
    refine hw.eq_of_not ?_
    rintro ⟨d, hd, h⟩
    obtain ⟨n, x, hx⟩ := h.inside
    exact hp d hd (n :: x) (by simp) hx
  · rw [prepareOstreeCommitIn_final (hordinary.within hw) hpermits]
    refine leftOf_empty ?_
    rintro k e hk ⟨d, hd, h⟩
    obtain ⟨n, x, rfl⟩ := h.inside
    have hmounts' : NoBindMounts host t' := fun p e he => hmounts p e (hw.eq_some he)
    refine (cleaned_iff hmounts' (by simp)).mp h ?_
    -- what kept the entry is still there
    have hspared := (hstays d hd (n :: x) e (by simp) (hw.eq_some hk)).mp hk
    refine Pinned.mono (fun m hm hF => ?_) hspared
    obtain ⟨e', he', hdev⟩ := hF
    exact ⟨e', (hstays d hd m e' hm he').mpr ⟨m, hm, ⟨e', he', hdev⟩, .inl List.prefix_rfl⟩, hdev⟩

-- ── Two trees ─────────────────────────────────────────────────────────────────

/-- A host whose links lead to an entry beside them. -/
def siblingFollow (L : View) (p rest : List String) : Result (Option (List String)) :=
  match L p with
  | some ⟨.symlink target, _, _⟩ =>
      match L (p.dropLast ++ [target] ++ rest) with
      | some e =>
          if e.isDir then .ok (some (p.dropLast ++ [target] ++ rest))
          else .error (.err "Not a directory")
      | none => .ok none
  | _ => .error (.err "Not a directory")

/-- That host, on a kernel that reports mount roots, where no removal fails. -/
def sampleHost : Host where
  rootDev := 1
  follow := siblingFollow
  statx := true
  refuses := fun _ _ => none
  follow_isDir := by
    intro L p rest d h
    unfold siblingFollow at h
    split at h
    · split at h
      · rename_i e he
        by_cases hdir : e.isDir = true
        · rw [if_pos hdir] at h
          injection h with h
          injection h with h
          exact .inr ⟨e, h ▸ he, hdir⟩
        · rw [if_neg hdir] at h
          exact absurd h (by simp)
      · exact absurd h (by simp)
    · exact absurd h (by simp)
  follow_error := by
    intro L p rest e he hlink
    refine ⟨"Not a directory", ?_⟩
    unfold siblingFollow
    rw [he]
    obtain ⟨kind, dev, mountRoot⟩ := e
    cases kind with
    | symlink target => exact absurd hlink (by simp [Entry.isSymlink])
    | directory => rfl
    | regular contents => rfl
    | special => rfl

def sampleDir : Entry := { kind := .directory, dev := 1, mountRoot := false }
def sampleFile : Entry := { kind := .regular [120], dev := 1, mountRoot := false }

/-- A file system is mounted below `tmp`, beside two files and a directory. -/
def mountedTmp : Tree :=
  FileTree.ofList
    [(["etc"], sampleDir), (["tmp"], sampleDir), (["tmp", "a"], sampleDir),
      (["tmp", "a", "file"], sampleFile),
      (["tmp", "a", "mnt"], { kind := .directory, dev := 2, mountRoot := true }),
      (["tmp", "b"], sampleDir), (["tmp", "b", "file"], sampleFile)]
    (by decide) (by decide) (by decide)

/-- Of that tree the mounted file system and the directory it is in remain. -/
theorem mountedTmp_exact :
    CleansExactly sampleHost mountedTmp
      (finalState (prepareOstreeCommitIn sampleHost mountedTmp)) := by
  refine prepareOstreeCommitIn_exact sampleHost mountedTmp ?_ ⟨?_, ?_⟩ fun _ _ => rfl
  · exact FileTree.forall_lookup (by decide)
  · exact fun d hd e he => FileTree.forall_lookup
      (P := fun p e => p ∈ forceCleanPaths → e.isDir = true) (by decide) d e he hd
  · exact fun e he => FileTree.forall_lookup (P := fun _ e => e.isSymlink = false) (by decide) _ e he

/-- The tree where `var` is a link to `run`. -/
def linkedVar : Tree :=
  FileTree.ofList
    [(["run"], sampleDir), (["run", "tmp"], sampleDir),
      (["var"], { kind := .symlink "run", dev := 1, mountRoot := false })]
    (by decide) (by decide) (by decide)

/-- **Through a link at `var` a directory that is to be kept is removed**: `var/tmp` is one before
    the clean-up, and does not exist after it. -/
theorem linkedVar_loses :
    (∀ path ∈ forceCleanPaths, sampleHost.openAt linkedVar.lookup [] path = .ok none ∨
      ∃ d, sampleHost.openAt linkedVar.lookup [] path = .ok (some d)) ∧
    NoBindMounts sampleHost linkedVar ∧
    (∀ L p, sampleHost.refuses L p = none) ∧
    sampleHost.openAt linkedVar.lookup [] ["var", "tmp"] = .ok (some ["run", "tmp"]) ∧
    sampleHost.openAt (finalState (prepareOstreeCommitIn sampleHost linkedVar)).lookup []
      ["var", "tmp"] = .ok none := by
  refine ⟨?_, FileTree.forall_lookup (by decide), fun _ _ => rfl, rfl, ?_⟩
  · intro path hpath
    rcases List.mem_cons.mp hpath with rfl | hpath
    · exact .inr ⟨["run"], rfl⟩
    rcases List.mem_cons.mp hpath with rfl | hpath
    · exact .inl rfl
    rcases List.mem_cons.mp hpath with rfl | hpath
    · exact .inr ⟨["run", "tmp"], rfl⟩
    rcases List.mem_cons.mp hpath with rfl | hpath
    · exact .inl rfl
    · exact absurd hpath List.not_mem_nil
  · rfl

end OstreeExt.Cleanup
