import OstreeExt.Tar.Entry
import OstreeExt.Lib.Exec
import OstreeExt.Lib.Maps

/-!
# Filtering the tar stream of a layer

`filter_tar` copies the archive of a layer: `etc` and `var` are moved below `usr`, what the
commit must not have is left out, and the hard links to objects of the repository that the
layer changed become files.  Two lookaside maps carry the changed objects from their entries
to the links.
-/

namespace OstreeExt.Tar

open OstreeExt Exec

/-- `EXCLUDED_TOPLEVEL_PATHS` -/
def excludedToplevelPaths : List String := ["run", "tmp", "proc", "sys", "dev"]

/-- `TarImportConfig` -/
structure TarImportConfig where
  allowNonusr : Bool := false
  remapFactoryVar : Bool := false
  deriving DecidableEq

/-- `NormalizedPathResult` -/
inductive NormalizedPathResult where
  | filtered (name : String)
  | normal (path : Path)
  deriving DecidableEq

-- ── Paths ─────────────────────────────────────────────────────────────────────

/-- `remap_etc_path`: if a path starts with `/etc` or `./etc` or `etc`, remap it to be
    `usr/etc`. -/
def remapEtcPath : Path → Path
  | .curDir :: .normal "etc" :: rest => .curDir :: .normal "usr" :: .normal "etc" :: rest
  | .rootDir :: .normal "etc" :: rest => .rootDir :: .normal "usr" :: .normal "etc" :: rest
  | .normal "etc" :: rest => .normal "usr" :: .normal "etc" :: rest
  | path => path

/-- `Utf8Component::as_str` -/
def Component.asStr : Component → String
  | .rootDir => "/"
  | .curDir => "."
  | .parentDir => ".."
  | .normal s => s

/-- What `normalize_validate_path` makes of a component before it looks at the names: absolute
    paths are converted to relative ones, and `..` is refused. -/
def mapComponent (path : Path) : Component → Result Component
  | .rootDir => .ok .curDir
  | .curDir => .ok .curDir
  | .normal s => .ok (.normal s)
  | .parentDir => .error (.err ("Invalid path: " ++ path.render))

/-- Where the first name of a path goes, and if what is below it is excluded; `none` for a
    path that is filtered. -/
def mapToplevel (config : TarImportConfig) (part : String) : Option (Path × Bool) :=
  if part = "usr" then some ([.normal part], false)
  else if part = "etc" then some ([.normal "usr", .normal "etc"], false)
  else if part = "var" then
    if config.remapFactoryVar then
      some ([.normal "usr", .normal "share", .normal "factory", .normal "var"], false)
    else some ([.normal part], false)
  else if part ∈ excludedToplevelPaths then some ([.normal part], true)
  else if config.allowNonusr then some ([.normal part], false)
  else none

/-- The loop of `normalize_validate_path`. -/
def normalizeParts (config : TarImportConfig) (path : Path) (foundFirst excluded : Bool)
    (ret : Path) : List Component → Result NormalizedPathResult
  | [] => .ok (.normal ret)
  | c :: rest =>
      match mapComponent path c with
      | .error e => .error e
      | .ok part =>
          if excluded then .ok (.filtered (Component.asStr part))
          else if foundFirst then
            normalizeParts config path foundFirst excluded (ret ++ [part]) rest
          else
            match part with
            | .normal s =>
                match mapToplevel config s with
                | some (dest, excluded) =>
                    normalizeParts config path true excluded (ret ++ dest) rest
                | none => .ok (.filtered s)
            | part => normalizeParts config path foundFirst excluded (ret ++ [part]) rest

/-- `normalize_validate_path` -/
def normalizeValidatePath (path : Path) (config : TarImportConfig) :
    Result NormalizedPathResult :=
  -- a leading `./` is inserted if it is not there
  let ret : Path := match path with
    | .normal _ :: _ => [.curDir]
    | _ => []
  normalizeParts config path false false ret path

-- ── The archives ──────────────────────────────────────────────────────────────

/-- A link name in an archive. -/
inductive LinkName where
  | missing
  | notUtf8
  | utf8 (text : String)

/-- The target of a link, in UTF-8. -/
def LinkName.target (missing : String) : LinkName → Result Path
  | .missing => .error (.err missing)
  | .notUtf8 => .error (.err "provided path is not valid UTF-8")
  | .utf8 text => .ok (Path.parse text)

/-- A PAX extension record. -/
structure PaxExtension where
  key : String
  value : Bytes
  deriving DecidableEq

/-- An entry of a layer as the reader yields it: its path, if that is UTF-8; the link name in
    the header, where there is no room for a long one, and the link name of the entry; and the
    extension records, each of which may be malformed. -/
structure LayerEntry where
  path : Option String
  header : Header
  headerLink : LinkName := .missing
  link : LinkName := .missing
  pax : Option (List (Except String PaxExtension)) := none
  data : Bytes := []

/-- An entry of the filtered stream. -/
structure FilteredEntry where
  path : Path
  header : Header
  link : Option Path := none
  pax : List PaxExtension := []
  data : Bytes := []

/-- What the `tar` crate's `Builder` accepts as the path of an entry and as a link target. -/
structure TarBuilder where
  checkPath : Path → Result Unit
  checkLink : Path → Result Unit

/-- The local variables of `filter_tar`: the output so far, the lookaside data for hardlinked
    files into `/sysroot`, and the counts of filtered paths. -/
structure FilterState where
  out : List FilteredEntry := []
  changedSysrootObjects : Path → Option (Header × Bytes) := fun _ => none
  newSysrootLinkTargets : Path → Option Path := fun _ => none
  filtered : Std.ExtTreeMap String Nat := ∅

/-- Set or remove a changed object. -/
def FilterState.setChanged (w : FilterState) (path : Path) (v : Option (Header × Bytes)) :
    FilterState :=
  { w with changedSysrootObjects := Function.update w.changedSysrootObjects path v }

/-- Set the new target of the links to an object. -/
def FilterState.setTarget (w : FilterState) (target path : Path) : FilterState :=
  { w with newSysrootLinkTargets := Function.update w.newSysrootLinkTargets target (some path) }

/-- Add an entry to the output. -/
def FilterState.emit (w : FilterState) (e : FilteredEntry) : FilterState :=
  { w with out := w.out ++ [e] }

/-- Count a filtered path. -/
def FilterState.count (w : FilterState) (name : String) : FilterState :=
  { w with filtered := w.filtered.insert name ((w.filtered[name]?).getD 0 + 1) }

/-- Programs over the local variables. -/
abbrev FilterM := EStateM Stop FilterState

section Filter

variable (tar : TarBuilder) (config : TarImportConfig)

/-- `Builder::append_data` -/
def appendData (e : FilteredEntry) : FilterM Unit := do
  liftR (tar.checkPath e.path)
  modify (·.emit e)

/-- `Builder::append_link` -/
def appendLink (e : FilteredEntry) (target : Path) : FilterM Unit := do
  liftR (tar.checkPath e.path)
  liftR (tar.checkLink target)
  modify (·.emit { e with link := some target })

/-- The path of an entry, in UTF-8. -/
def LayerEntry.utf8Path (entry : LayerEntry) : Result Path :=
  match entry.path with
  | some text => .ok (Path.parse text)
  | none => .error (.err "provided path is not valid UTF-8")

/-- The extension records of an entry, which are copied as they are. -/
def LayerEntry.extensions (entry : LayerEntry) : Result (List PaxExtension) :=
  (entry.pax.getD []).mapM fun
    | .ok ext => .ok ext
    | .error e => .error (.err e)

/-- `copy_entry`: copy a tar entry to a new tar archive, optionally using a different
    filesystem path. -/
def copyEntry (entry : LayerEntry) (path : Option Path) : FilterM Unit := do
  let path ← match path with
    | some path => pure path
    | none => liftR entry.utf8Path
  let pax ← liftR entry.extensions
  match entry.header.entryType with
  | .symlink => do
      let target ← liftR (entry.link.target "Invalid link")
      appendLink tar { path, header := entry.header, pax } target
  | .link => do
      let target ← liftR (entry.link.target "Invalid link")
      -- the target is normalized for hardlinked files in `/etc`, which go to `/usr/etc`
      appendLink tar { path, header := entry.header, pax } (remapEtcPath target)
  | _ => appendData tar { path, header := entry.header, pax, data := entry.data }

/-- Force a path to be relative. -/
def relative (path : Path) : Path := (stripPrefix [.rootDir] path).getD path

/-- The path lies below `REPO_PREFIX`. -/
def inRepo (path : Path) : Bool := (stripPrefix repoPrefix path).isSome

/-- The target of a hard link as it is looked up: it is `path`, relative by now, from which
    the leading slash would be taken. -/
def lookupTarget (path target : Path) : Path := (stripPrefix [.rootDir] path).getD target

/-- The data of a modified object, for the hard links to it. -/
def stash (path : Path) (entry : LayerEntry) : FilterM Unit :=
  modify (·.setChanged path (some (entry.header, entry.data)))

/-- A modified hard link to an object of the repository: the first link to a modified object
    becomes the real file, and any further ones refer to that file. -/
def relink (path target : Path) (entry : LayerEntry) : FilterM Unit := do
  match (← get).changedSysrootObjects target with
  | some (header, data) => do
      modify (·.setChanged target none)
      appendData tar { path, header, data }
      modify (·.setTarget target path)
  | none =>
      match (← get).newSysrootLinkTargets target with
      | some realTarget => appendLink tar { path, header := entry.header } realTarget
      | none => pure ()

/-- An entry that does not take part in the handling of `/sysroot`. -/
def filterPath (path : Path) (entry : LayerEntry) : FilterM Unit := do
  match ← liftR (normalizeValidatePath path config) with
  | .filtered name => modify (·.count name)
  | .normal normalized => copyEntry tar entry (some normalized)

/-- One round of the loop of `filter_tar`. -/
def filterTarEntry (entry : Except String LayerEntry) : FilterM Unit := do
  let entry ← match entry with
    | .ok entry => pure entry
    | .error e => throw (.err e)
  let path ← liftR entry.utf8Path
  let path := relative path
  let isModified := 0 < entry.header.mtime
  let isRegular := entry.header.entryType = .regular
  if inRepo path then
    if isModified ∧ isRegular then stash path entry
    else filterPath tar config path entry
  else if entry.header.entryType = .link ∧ isModified then do
    let target ← liftR (entry.headerLink.target "Invalid empty hardlink")
    let target := lookupTarget path target
    if inRepo target then relink tar path target entry
    else filterPath tar config path entry
  else filterPath tar config path entry

/-- `filter_tar`: the stream it has written when it returns, and what it returns. -/
def filterTar (src : List (Except String LayerEntry)) :
    List FilteredEntry × Result (Std.ExtTreeMap String Nat) :=
  match forM src (filterTarEntry tar config) {} with
  | .ok _ w => (w.out, .ok w.filtered)
  | .error e w => (w.out, .error e)

end Filter

-- ── What becomes of an entry ──────────────────────────────────────────────────

/-- The path of an entry as `filter_tar` uses it. -/
def LayerEntry.rel (e : LayerEntry) : Path := relative (Path.parse (e.path.getD ""))

/-- A modified file of the repository. -/
def LayerEntry.Stashed (e : LayerEntry) : Prop :=
  inRepo e.rel = true ∧ 0 < e.header.mtime ∧ e.header.entryType = .regular

/-- The object of the repository that a modified hard link from outside is for. -/
def LayerEntry.repoTarget (e : LayerEntry) : Option Path :=
  if inRepo e.rel = false ∧ e.header.entryType = .link ∧ 0 < e.header.mtime then
    match e.headerLink with
    | .utf8 text =>
        if inRepo (lookupTarget e.rel (Path.parse text)) then
          some (lookupTarget e.rel (Path.parse text))
        else none
    | _ => none
  else none

/-- An entry that is copied to a path. -/
def LayerEntry.CopiedTo (config : TarImportConfig) (e : LayerEntry) (q : Path) : Prop :=
  ¬ e.Stashed ∧ e.repoTarget = none ∧ normalizeValidatePath e.rel config = .ok (.normal q)

/-- The entry that `copy_entry` writes. -/
def copyOf (entry : LayerEntry) (path : Path) : Result FilteredEntry := do
  let pax ← entry.extensions
  match entry.header.entryType with
  | .symlink => do
      let target ← entry.link.target "Invalid link"
      .ok { path, header := entry.header, link := some target, pax }
  | .link => do
      let target ← entry.link.target "Invalid link"
      .ok { path, header := entry.header, link := some (remapEtcPath target), pax }
  | _ => .ok { path, header := entry.header, pax, data := entry.data }

/-- What a round of the loop that succeeds can do. -/
inductive Fate (config : TarImportConfig) (e : LayerEntry) (w : FilterState) :
    FilterState → Prop where
  | stashed (h : e.Stashed) : Fate config e w (w.setChanged e.rel (some (e.header, e.data)))
  | moved {t : Path} {header : Header} {data : Bytes} (ht : e.repoTarget = some t)
      (hc : w.changedSysrootObjects t = some (header, data)) :
      Fate config e w (((w.setChanged t none).emit { path := e.rel, header, data }).setTarget t e.rel)
  | relinked {t realTarget : Path} (ht : e.repoTarget = some t)
      (hc : w.changedSysrootObjects t = none) (hn : w.newSysrootLinkTargets t = some realTarget) :
      Fate config e w (w.emit { path := e.rel, header := e.header, link := some realTarget })
  | unhandled {t : Path} (ht : e.repoTarget = some t) (hc : w.changedSysrootObjects t = none)
      (hn : w.newSysrootLinkTargets t = none) : Fate config e w w
  | dropped {name : String} (hs : ¬ e.Stashed) (ht : e.repoTarget = none)
      (hn : normalizeValidatePath e.rel config = .ok (.filtered name)) :
      Fate config e w (w.count name)
  | copied {q : Path} {o : FilteredEntry} (h : e.CopiedTo config q) (ho : copyOf e q = .ok o) :
      Fate config e w (w.emit o)

section Fate

variable {tar : TarBuilder} {config : TarImportConfig} {e : LayerEntry} {w w' : FilterState}
  {u : Unit}

theorem appendData_ok {o : FilteredEntry} (h : appendData tar o w = .ok u w') : w' = w.emit o := by
  rw [appendData] at h
  obtain ⟨_, w₁, hcheck, hrest⟩ := bind_ok h
  obtain ⟨_, rfl⟩ := liftR_eq_ok hcheck
  cases hrest
  rfl

theorem appendLink_ok {o : FilteredEntry} {target : Path}
    (h : appendLink tar o target w = .ok u w') : w' = w.emit { o with link := some target } := by
  rw [appendLink] at h
  obtain ⟨_, w₁, hpath, h₁⟩ := bind_ok h
  obtain ⟨_, rfl⟩ := liftR_eq_ok hpath
  obtain ⟨_, w₂, hlink, h₂⟩ := bind_ok h₁
  obtain ⟨_, rfl⟩ := liftR_eq_ok hlink
  cases h₂
  rfl

/-- `copy_entry` adds the copy to the output. -/
theorem copyEntry_ok {q : Path} (h : copyEntry tar e (some q) w = .ok u w') :
    ∃ o, copyOf e q = .ok o ∧ w' = w.emit o := by
  rw [copyEntry] at h
  obtain ⟨_, w₁, hpath, h₁⟩ := bind_ok h
  cases hpath
  obtain ⟨pax, w₂, hpax, h₂⟩ := bind_ok h₁
  obtain ⟨hext, rfl⟩ := liftR_eq_ok hpax
  rw [copyOf, hext, bind_ok_eq]
  cases hty : e.header.entryType with
  | symlink =>
      rw [hty] at h₂
      obtain ⟨target, w₃, htarget, h₃⟩ := bind_ok h₂
      obtain ⟨hlink, rfl⟩ := liftR_eq_ok htarget
      dsimp only
      rw [hlink, bind_ok_eq]
      exact ⟨_, rfl, appendLink_ok h₃⟩
  | link =>
      rw [hty] at h₂
      obtain ⟨target, w₃, htarget, h₃⟩ := bind_ok h₂
      obtain ⟨hlink, rfl⟩ := liftR_eq_ok htarget
      dsimp only
      rw [hlink, bind_ok_eq]
      exact ⟨_, rfl, appendLink_ok h₃⟩
  | regular =>
      rw [hty] at h₂
      exact ⟨_, rfl, appendData_ok h₂⟩
  | directory =>
      rw [hty] at h₂
      exact ⟨_, rfl, appendData_ok h₂⟩
  | other flag =>
      rw [hty] at h₂
      exact ⟨_, rfl, appendData_ok h₂⟩

theorem filterPath_fate (hs : ¬ e.Stashed) (ht : e.repoTarget = none)
    (h : filterPath tar config e.rel e w = .ok u w') : Fate config e w w' := by
  rw [filterPath] at h
  obtain ⟨r, w₁, hlift, h₁⟩ := bind_ok h
  obtain ⟨hnorm, rfl⟩ := liftR_eq_ok hlift
  cases r with
  | filtered name =>
      cases h₁
      exact .dropped hs ht hnorm
  | normal q =>
      obtain ⟨o, ho, rfl⟩ := copyEntry_ok h₁
      exact .copied ⟨hs, ht, hnorm⟩ ho

theorem relink_fate {t : Path} (ht : e.repoTarget = some t)
    (h : relink tar e.rel t e w = .ok u w') : Fate config e w w' := by
  rw [relink, bind_of_ok (get_run _)] at h
  cases hc : w.changedSysrootObjects t with
  | some v =>
      obtain ⟨header, data⟩ := v
      rw [hc] at h
      obtain ⟨_, w₁, hset, h₁⟩ := bind_ok h
      cases hset
      obtain ⟨_, w₂, happend, h₂⟩ := bind_ok h₁
      obtain rfl := appendData_ok happend
      cases h₂
      exact .moved ht hc
  | none =>
      rw [hc] at h
      dsimp only at h
      rw [bind_of_ok (get_run _)] at h
      cases hn : w.newSysrootLinkTargets t with
      | some realTarget =>
          rw [hn] at h
          obtain rfl := appendLink_ok h
          exact .relinked ht hc hn
      | none =>
          rw [hn] at h
          cases h
          exact .unhandled ht hc hn

/-- The path of an entry that is read. -/
theorem rel_of_utf8Path {path : Path} (h : e.utf8Path = .ok path) : relative path = e.rel := by
  rw [LayerEntry.utf8Path] at h
  rw [LayerEntry.rel]
  cases hp : e.path with
  | none =>
      rw [hp] at h
      exact nomatch h
  | some text =>
      rw [hp] at h
      rw [Option.getD_some, Except.ok.inj h]

/-- The object that a modified hard link is looked up for. -/
theorem repoTarget_of_link {target : Path} (hin : inRepo e.rel = false)
    (hlink : e.header.entryType = .link ∧ 0 < e.header.mtime)
    (h : e.headerLink.target "Invalid empty hardlink" = .ok target) :
    e.repoTarget = if inRepo (lookupTarget e.rel target) then some (lookupTarget e.rel target)
      else none := by
  rw [LayerEntry.repoTarget, if_pos ⟨hin, hlink⟩]
  cases hl : e.headerLink with
  | missing =>
      rw [hl] at h
      exact nomatch h
  | notUtf8 =>
      rw [hl] at h
      exact nomatch h
  | utf8 text =>
      rw [hl] at h
      rw [← Except.ok.inj h]

/-- **What a round does.** -/
theorem filterTarEntry_fate (h : filterTarEntry tar config (.ok e) w = .ok u w') : Fate config e w w' := by
  rw [filterTarEntry] at h
  obtain ⟨_, w₁, hentry, h₁⟩ := bind_ok h
  cases hentry
  obtain ⟨path, w₂, hpath, h₂⟩ := bind_ok h₁
  obtain ⟨hutf8, rfl⟩ := liftR_eq_ok hpath
  dsimp only at h₂
  rw [rel_of_utf8Path hutf8] at h₂
  split at h₂
  · next hin =>
    have ht : e.repoTarget = none := by
      rw [LayerEntry.repoTarget, if_neg (by simp [hin])]
    split at h₂
    · next hmod =>
      cases h₂
      exact .stashed ⟨hin, hmod.1, hmod.2⟩
    · next hmod => exact filterPath_fate (fun hs => hmod ⟨hs.2.1, hs.2.2⟩) ht h₂
  · next hnot =>
    have hin : inRepo e.rel = false := by simpa using hnot
    have hs : ¬ e.Stashed := fun hs => hnot hs.1
    split at h₂
    · next hlink =>
      obtain ⟨target, w₃, htarget, h₃⟩ := bind_ok h₂
      obtain ⟨hname, rfl⟩ := liftR_eq_ok htarget
      have hrepo := repoTarget_of_link hin hlink hname
      split at h₃
      · next hin' => exact relink_fate (by rw [hrepo, if_pos hin']) h₃
      · next hin' => exact filterPath_fate hs (by rw [hrepo, if_neg hin']) h₃
    · next hlink =>
      refine filterPath_fate hs ?_ h₂
      rw [LayerEntry.repoTarget, if_neg (fun h => hlink h.2)]

-- a round that fails leaves the output as it is

theorem liftR_fails {α : Type} {r : Result α} {err : Stop} (h : liftR r w = .error err w') :
    w' = w := by
  cases r with
  | ok a => exact nomatch h
  | error e =>
      cases h
      rfl

theorem appendData_error {o : FilteredEntry} {err : Stop}
    (h : appendData tar o w = .error err w') : w' = w := by
  rw [appendData] at h
  rcases bind_error h with hcheck | ⟨_, w₁, _, hemit⟩
  · exact liftR_fails hcheck
  · exact nomatch hemit

theorem appendLink_error {o : FilteredEntry} {target : Path} {err : Stop}
    (h : appendLink tar o target w = .error err w') : w' = w := by
  rw [appendLink] at h
  rcases bind_error h with hpath | ⟨_, w₁, hpath, h₁⟩
  · exact liftR_fails hpath
  · obtain ⟨_, rfl⟩ := liftR_eq_ok hpath
    rcases bind_error h₁ with hlink | ⟨_, w₂, _, hemit⟩
    · exact liftR_fails hlink
    · exact nomatch hemit

theorem copyEntry_error {q : Path} {err : Stop} (h : copyEntry tar e (some q) w = .error err w') :
    w' = w := by
  rw [copyEntry] at h
  rcases bind_error h with hpath | ⟨_, w₁, hpath, h₁⟩
  · exact nomatch hpath
  cases hpath
  rcases bind_error h₁ with hpax | ⟨pax, w₂, hpax, h₂⟩
  · exact liftR_fails hpax
  obtain ⟨_, rfl⟩ := liftR_eq_ok hpax
  cases hty : e.header.entryType with
  | symlink =>
      rw [hty] at h₂
      rcases bind_error h₂ with htarget | ⟨target, w₃, htarget, h₃⟩
      · exact liftR_fails htarget
      · obtain ⟨_, rfl⟩ := liftR_eq_ok htarget
        exact appendLink_error h₃
  | link =>
      rw [hty] at h₂
      rcases bind_error h₂ with htarget | ⟨target, w₃, htarget, h₃⟩
      · exact liftR_fails htarget
      · obtain ⟨_, rfl⟩ := liftR_eq_ok htarget
        exact appendLink_error h₃
  | regular =>
      rw [hty] at h₂
      exact appendData_error h₂
  | directory =>
      rw [hty] at h₂
      exact appendData_error h₂
  | other flag =>
      rw [hty] at h₂
      exact appendData_error h₂

theorem filterPath_error {path : Path} {err : Stop}
    (h : filterPath tar config path e w = .error err w') : w' = w := by
  rw [filterPath] at h
  rcases bind_error h with hnorm | ⟨r, w₁, hnorm, h₁⟩
  · exact liftR_fails hnorm
  · obtain ⟨_, rfl⟩ := liftR_eq_ok hnorm
    cases r with
    | filtered name => exact nomatch h₁
    | normal q => exact copyEntry_error h₁

theorem relink_error {path t : Path} {err : Stop} (h : relink tar path t e w = .error err w') :
    w'.out = w.out := by
  rw [relink, bind_of_ok (get_run _)] at h
  cases hc : w.changedSysrootObjects t with
  | some v =>
      obtain ⟨header, data⟩ := v
      rw [hc] at h
      rcases bind_error h with hset | ⟨_, w₁, hset, h₁⟩
      · exact nomatch hset
      cases hset
      rcases bind_error h₁ with happend | ⟨_, w₂, _, hset⟩
      · rw [appendData_error happend]
        rfl
      · exact nomatch hset
  | none =>
      rw [hc] at h
      dsimp only at h
      rw [bind_of_ok (get_run _)] at h
      cases hn : w.newSysrootLinkTargets t with
      | some realTarget =>
          rw [hn] at h
          rw [appendLink_error h]
      | none =>
          rw [hn] at h
          exact nomatch h

/-- A round that fails adds nothing to the output. -/
theorem filterTarEntry_error {ent : Except String LayerEntry} {err : Stop}
    (h : filterTarEntry tar config ent w = .error err w') : w'.out = w.out := by
  cases ent with
  | error msg =>
      cases h
      rfl
  | ok entry =>
  rw [filterTarEntry] at h
  rcases bind_error h with hentry | ⟨entry, w₁, hentry, h₁⟩
  · exact nomatch hentry
  cases hentry
  rcases bind_error h₁ with hpath | ⟨path, w₂, hpath, h₂⟩
  · rw [liftR_fails hpath]
  obtain ⟨_, rfl⟩ := liftR_eq_ok hpath
  dsimp only at h₂
  split at h₂
  · split at h₂
    · exact nomatch h₂
    · rw [filterPath_error h₂]
  · split at h₂
    · rcases bind_error h₂ with htarget | ⟨target, w₃, htarget, h₃⟩
      · rw [liftR_fails htarget]
      obtain ⟨_, rfl⟩ := liftR_eq_ok htarget
      split at h₃
      · exact relink_error h₃
      · rw [filterPath_error h₃]
    · rw [filterPath_error h₂]

end Fate

end OstreeExt.Tar
