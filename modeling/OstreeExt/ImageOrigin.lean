import OstreeExt.ImageReference

/-!
# Origins of deployments

`deploy` writes the displayed `OstreeImageReference` into the origin file, and whatever reads the
file parses it again.  The schemes, the two shorthands and the two spellings of the registry are
parsed by `splitScheme`; **`origin_readsBack_iff`** says of which strings the reference is
displayed as one that is parsed to the same reference, with a name.
-/

namespace OstreeExt

-- ── Display ───────────────────────────────────────────────────────────────────

/-- `Display for SignatureSource`. -/
def SignatureSource.display : SignatureSource → String
  | .ostreeRemote r => "ostree-remote-image" ++ ":" ++ r
  | .containerPolicy => "ostree-image-signed"
  | .containerPolicyAllowInsecure => "ostree-unverified-image"

/-- `Display for OstreeImageReference`, without the alternate flag. -/
def OstreeImageReference.display (r : OstreeImageReference) : String :=
  if r.sigverify = .containerPolicyAllowInsecure ∧ r.imgref.transport = .registry then
    "ostree-unverified-registry" ++ ":" ++ r.imgref.name
  else r.sigverify.display ++ ":" ++ r.imgref.display

-- ── Splitting at the colon ────────────────────────────────────────────────────

/-- What is split is the two parts and the character between them. -/
theorem splitOnce_eq_some {c : Char} {s a b : List Char} :
    splitOnce c s = some (a, b) ↔ c ∉ a ∧ s = a ++ c :: b := by
  constructor
  · intro h
    induction s generalizing a with
    | nil => exact absurd h (by simp [splitOnce])
    | cons d s ih =>
        rw [splitOnce] at h
        by_cases hd : d = c
        · rw [if_pos hd] at h
          injection h with h
          obtain ⟨rfl, rfl⟩ := Prod.mk.inj h
          exact ⟨List.not_mem_nil, by rw [hd]; rfl⟩
        · rw [if_neg hd] at h
          obtain ⟨p, hp, heq⟩ := Option.map_eq_some_iff.mp h
          obtain ⟨rfl, rfl⟩ := Prod.mk.inj heq
          obtain ⟨hnot, hs⟩ := ih hp
          refine ⟨?_, by rw [hs]; rfl⟩
          intro hmem
          rcases List.mem_cons.mp hmem with hc | hc
          · exact hd hc.symm
          · exact hnot hc
  · rintro ⟨hnot, rfl⟩
    exact splitOnce_append hnot b

/-- The same of strings. -/
theorem ofList_splitOnce {s a b : List Char} (h : splitOnce ':' s = some (a, b)) :
    ':' ∉ (String.ofList a).toList ∧
      String.ofList s = String.ofList a ++ ":" ++ String.ofList b := by
  obtain ⟨hnot, rfl⟩ := splitOnce_eq_some.mp h
  refine ⟨by rw [String.toList_ofList]; exact hnot, String.toList_inj.mp ?_⟩
  simp only [String.toList_append, String.toList_ofList, List.append_assoc]
  rfl

theorem splitOnce_colon {first : String} (h : ':' ∉ first.toList) (second : String) :
    splitOnce ':' (first ++ ":" ++ second).toList = some (first.toList, second.toList) := by
  rw [String.toList_append, String.toList_append, List.append_assoc]
  exact splitOnce_append h _

-- ── The schemes ───────────────────────────────────────────────────────────────

namespace OstreeImageReference

/-- The string is one of the five schemes with its arguments, and `rest` is what is parsed as an
    image reference. -/
inductive Scheme : String → SignatureSource → String → Prop where
  | signed (rest : String) :
      Scheme ("ostree-image-signed" ++ ":" ++ rest) .containerPolicy rest
  | unverified (rest : String) :
      Scheme ("ostree-unverified-image" ++ ":" ++ rest) .containerPolicyAllowInsecure rest
  | unverifiedRegistry (name : String) :
      Scheme ("ostree-unverified-registry" ++ ":" ++ name) .containerPolicyAllowInsecure
        ("registry:" ++ name)
  | remoteRegistry (remote name : String) (h : ':' ∉ remote.toList) :
      Scheme ("ostree-remote-registry" ++ ":" ++ (remote ++ ":" ++ name)) (.ostreeRemote remote)
        ("registry:" ++ name)
  | remoteImage (remote rest : String) (h : ':' ∉ remote.toList) :
      Scheme ("ostree-remote-image" ++ ":" ++ (remote ++ ":" ++ rest)) (.ostreeRemote remote) rest

/-- **The schemes are what is parsed.** -/
theorem splitScheme_eq_ok {s rest : String} {sig : SignatureSource} :
    splitScheme s = .ok (sig, rest) ↔ Scheme s sig rest := by
  constructor
  · intro h
    rw [splitScheme] at h
    cases hfirst : splitOnce ':' s.toList with
    | none => rw [hfirst] at h; exact absurd h (by simp)
    | some parts =>
        obtain ⟨first, second⟩ := parts
        obtain ⟨-, heq⟩ := ofList_splitOnce hfirst
        rw [String.ofList_toList] at heq
        subst heq
        rw [hfirst] at h
        dsimp only at h
        by_cases h₁ : String.ofList first = "ostree-image-signed"
        · rw [if_pos h₁] at h
          obtain ⟨rfl, rfl⟩ := Prod.mk.inj (Except.ok.inj h)
          rw [h₁]
          exact .signed _
        rw [if_neg h₁] at h
        by_cases h₂ : String.ofList first = "ostree-unverified-image"
        · rw [if_pos h₂] at h
          obtain ⟨rfl, rfl⟩ := Prod.mk.inj (Except.ok.inj h)
          rw [h₂]
          exact .unverified _
        rw [if_neg h₂] at h
        by_cases h₃ : String.ofList first = "ostree-unverified-registry"
        · rw [if_pos h₃] at h
          obtain ⟨rfl, rfl⟩ := Prod.mk.inj (Except.ok.inj h)
          rw [h₃]
          exact .unverifiedRegistry _
        rw [if_neg h₃] at h
        by_cases h₄ : String.ofList first = "ostree-remote-registry"
        · rw [if_pos h₄] at h
          cases hsecond : splitOnce ':' second with
          | none => rw [hsecond] at h; exact absurd h (by simp)
          | some parts =>
              obtain ⟨remote, name⟩ := parts
              rw [hsecond] at h
              obtain ⟨rfl, rfl⟩ := Prod.mk.inj (Except.ok.inj h)
              obtain ⟨hremote, heq⟩ := ofList_splitOnce hsecond
              rw [h₄, heq]
              exact .remoteRegistry _ _ hremote
        rw [if_neg h₄] at h
        by_cases h₅ : String.ofList first = "ostree-remote-image"
        · rw [if_pos h₅] at h
          cases hsecond : splitOnce ':' second with
          | none => rw [hsecond] at h; exact absurd h (by simp)
          | some parts =>
              obtain ⟨remote, name⟩ := parts
              rw [hsecond] at h
              obtain ⟨rfl, rfl⟩ := Prod.mk.inj (Except.ok.inj h)
              obtain ⟨hremote, heq⟩ := ofList_splitOnce hsecond
              rw [h₅, heq]
              exact .remoteImage _ _ hremote
        rw [if_neg h₅] at h
        exact absurd h (by simp)
  · intro h
    cases h with
    | signed =>
        rw [splitScheme, splitOnce_colon (by decide)]
        simp
    | unverified =>
        rw [splitScheme, splitOnce_colon (by decide)]
        simp
    | unverifiedRegistry =>
        rw [splitScheme, splitOnce_colon (by decide)]
        simp
    | remoteRegistry remote name h =>
        rw [splitScheme, splitOnce_colon (by decide)]
        simp only [splitOnce_colon h]
        simp
    | remoteImage remote rest h =>
        rw [splitScheme, splitOnce_colon (by decide)]
        simp only [splitOnce_colon h]
        simp

/-- What is parsed, by scheme. -/
theorem tryFrom_eq_ok {s : String} {r : OstreeImageReference} :
    tryFrom s = .ok r ↔
      ∃ rest, Scheme s r.sigverify rest ∧ ImageReference.tryFrom rest = .ok r.imgref := by
  constructor
  · intro h
    obtain ⟨parts, hparts, h⟩ := result_bind_eq_ok.mp h
    obtain ⟨sigverify, rest⟩ := parts
    obtain ⟨imgref, himgref, h⟩ := result_bind_eq_ok.mp h
    injection h with h
    subst h
    exact ⟨rest, splitScheme_eq_ok.mp hparts, himgref⟩
  · rintro ⟨rest, hscheme, himgref⟩
    refine result_bind_eq_ok.mpr ⟨_, splitScheme_eq_ok.mpr hscheme, ?_⟩
    exact result_bind_eq_ok.mpr ⟨_, himgref, rfl⟩

/-- The remote of a parsed reference has no colon. -/
theorem Scheme.remote_colon {s remote rest : String} (h : Scheme s (.ostreeRemote remote) rest) :
    ':' ∉ remote.toList := by
  cases h with
  | remoteRegistry _ _ h => exact h
  | remoteImage _ _ h => exact h

-- ── Reading a displayed reference back ────────────────────────────────────────

/-- The registry by its other name. -/
theorem tryFrom_registry {name : String} (hname : name ≠ "") :
    ImageReference.tryFrom ("registry:" ++ name) = .ok ⟨.registry, name⟩ := by
  have hsplit : splitOnce ':' ("registry:" ++ name).toList
      = some ("registry".toList, name.toList) := by
    rw [String.toList_append]
    exact splitOnce_append (a := "registry".toList) (by decide) name.toList
  have hempty : name.toList.isEmpty = false := by
    rw [List.isEmpty_eq_false_iff]
    exact fun h => hname (String.toList_inj.mp h)
  rw [ImageReference.tryFrom, hsplit]
  simp only [String.ofList_toList, hempty]
  rfl

/-- The scheme of a displayed signature source. -/
theorem scheme_display {sig : SignatureSource}
    (hremote : ∀ remote, sig = .ostreeRemote remote → ':' ∉ remote.toList) (rest : String) :
    Scheme (sig.display ++ ":" ++ rest) sig rest := by
  cases sig with
  | ostreeRemote remote =>
      have hscheme := Scheme.remoteImage remote rest (hremote remote rfl)
      rw [← String.append_assoc, ← String.append_assoc] at hscheme
      exact hscheme
  | containerPolicy => exact Scheme.signed rest
  | containerPolicyAllowInsecure => exact Scheme.unverified rest

/-- **A displayed reference is parsed to itself**, as long as it has a name and its remote no
    colon. -/
theorem tryFrom_display {r : OstreeImageReference} (hname : r.imgref.name ≠ "")
    (hremote : ∀ remote, r.sigverify = .ostreeRemote remote → ':' ∉ remote.toList) :
    tryFrom r.display = .ok r := by
  obtain ⟨sig, i⟩ := r
  rw [tryFrom_eq_ok, display]
  by_cases hshort : sig = .containerPolicyAllowInsecure ∧ i.transport = .registry
  · rw [if_pos hshort]
    obtain ⟨rfl, htransport⟩ := hshort
    obtain ⟨t, name⟩ := i
    obtain rfl : t = .registry := htransport
    exact ⟨_, Scheme.unverifiedRegistry name, tryFrom_registry hname⟩
  · rw [if_neg hshort]
    exact ⟨i.display, scheme_display hremote i.display, ImageReference.tryFrom_display i hname⟩

/-- **Only one string is parsed to a reference without a name**: the name is checked before the
    slashes behind `docker:` are stripped. -/
theorem tryFrom_nameless {value : String} {i : ImageReference}
    (h : ImageReference.tryFrom value = .ok i) : i.name = "" ↔ value = "docker://" := by
  rw [ImageReference.tryFrom] at h
  cases hsplit : splitOnce ':' value.toList with
  | none => rw [hsplit] at h; exact absurd h (by simp)
  | some parts =>
      obtain ⟨transportName, name⟩ := parts
      obtain ⟨-, heq⟩ := ofList_splitOnce hsplit
      rw [String.ofList_toList] at heq
      rw [hsplit] at h
      obtain ⟨transport, htransport, h⟩ := result_bind_eq_ok.mp h
      by_cases hempty : name.isEmpty = true
      · rw [if_pos hempty] at h
        exact absurd h (by simp)
      rw [if_neg hempty] at h
      have hne : String.ofList name ≠ "" := by
        intro hname
        rw [← String.toList_inj, String.toList_ofList] at hname
        rw [hname] at hempty
        exact absurd hempty (by simp)
      by_cases hdocker : String.ofList transportName = "docker"
      · rw [if_pos hdocker] at h
        cases hstrip : stripPrefix ['/', '/'] name with
        | none => rw [hstrip] at h; exact absurd h (by simp)
        | some stripped =>
            rw [hstrip] at h
            injection h with h
            subst h
            obtain rfl := stripPrefix_eq_some.mp hstrip
            rw [heq, hdocker, ← String.toList_inj, ← String.toList_inj]
            simp only [String.toList_append, String.toList_ofList]
            constructor
            · intro hname
              rw [hname]
              decide
            · intro hvalue
              have hrest : "docker://".toList ++ stripped = "docker://".toList ++ [] := hvalue
              exact List.append_cancel_left hrest
      · rw [if_neg hdocker] at h
        injection h with h
        subst h
        constructor
        · intro hname
          exact absurd hname hne
        · intro hvalue
          -- the part before the first colon is `docker`
          rw [hvalue] at hsplit
          have hparts : some ("docker".toList, "//".toList) = some (transportName, name) :=
            (by decide : splitOnce ':' "docker://".toList = _).symm.trans hsplit
          injection hparts with hparts
          exact absurd (by rw [← (Prod.mk.inj hparts).1]; decide) hdocker

/-- A registry named by `docker://` and no more, with a signature source. -/
def Nameless (s : String) : Prop :=
  s = "ostree-image-signed:docker://" ∨ s = "ostree-unverified-image:docker://" ∨
    ∃ remote : String, ':' ∉ remote.toList ∧ s = "ostree-remote-image:" ++ remote ++ ":docker://"

theorem registry_ne_docker (name : String) : "registry:" ++ name ≠ "docker://" := by
  intro h
  have hhead := congrArg (fun s => s.toList.head?) h
  have hchars : some 'r' = some 'd' := by
    rw [String.toList_append] at hhead
    exact hhead
  exact absurd hchars (by decide)

/-- What leaves `docker://` to be parsed. -/
theorem nameless_iff {s rest : String} {sig : SignatureSource} (h : Scheme s sig rest) :
    Nameless s ↔ rest = "docker://" := by
  constructor
  · intro hs
    -- a string has one scheme
    have hdocker : ∃ sig', Scheme s sig' "docker://" := by
      rcases hs with rfl | rfl | ⟨remote, hremote, rfl⟩
      · exact ⟨_, Scheme.signed "docker://"⟩
      · exact ⟨_, Scheme.unverified "docker://"⟩
      · have hscheme := Scheme.remoteImage remote "docker://" hremote
        rw [← String.append_assoc, ← String.append_assoc, String.append_assoc] at hscheme
        exact ⟨_, hscheme⟩
    obtain ⟨sig', hdocker⟩ := hdocker
    have heq := (splitScheme_eq_ok.mpr h).symm.trans (splitScheme_eq_ok.mpr hdocker)
    exact (Prod.mk.inj (Except.ok.inj heq)).2
  · intro hrest
    cases h with
    | signed => exact .inl (by rw [hrest]; decide)
    | unverified => exact .inr (.inl (by rw [hrest]; decide))
    | unverifiedRegistry name => exact absurd hrest (registry_ne_docker name)
    | remoteRegistry _ name => exact absurd hrest (registry_ne_docker name)
    | remoteImage remote _ hremote =>
        refine .inr (.inr ⟨remote, hremote, ?_⟩)
        rw [hrest, ← String.append_assoc, ← String.append_assoc, String.append_assoc]
        rfl

/-- **When an origin string can be read back.**  The reference that is parsed from a string has a
    name, and is displayed as a string that is parsed to the same signature source, transport and
    name, if and only if the string does not end behind its `docker://`. -/
theorem origin_readsBack_iff {s : String} {r : OstreeImageReference} (h : tryFrom s = .ok r) :
    (r.imgref.name ≠ "" ∧ tryFrom r.display = .ok r) ↔ ¬ Nameless s := by
  obtain ⟨rest, hscheme, himgref⟩ := tryFrom_eq_ok.mp h
  rw [nameless_iff hscheme, ← tryFrom_nameless himgref]
  constructor
  · rintro ⟨hname, -⟩
    exact hname
  · intro hname
    refine ⟨hname, tryFrom_display hname ?_⟩
    intro remote hremote
    rw [hremote] at hscheme
    exact hscheme.remote_colon

/-- A reference by one of the shorthands is displayed in full, and read back. -/
theorem readsBack_remoteRegistry : ∃ r,
    tryFrom "ostree-remote-registry:myremote:quay.io/exampleos/blah" = .ok r ∧
      r.imgref.name ≠ "" ∧ tryFrom r.display = .ok r := by
  refine ⟨⟨.ostreeRemote "myremote", .registry, "quay.io/exampleos/blah"⟩, by decide, ?_⟩
  refine (origin_readsBack_iff (s := "ostree-remote-registry:myremote:quay.io/exampleos/blah")
    (by decide)).mpr ?_
  have hs : "ostree-remote-registry:myremote:quay.io/exampleos/blah"
      = "ostree-remote-registry" ++ ":" ++ ("myremote" ++ ":" ++ "quay.io/exampleos/blah") := by
    decide
  rw [hs, nameless_iff (Scheme.remoteRegistry "myremote" "quay.io/exampleos/blah" (by decide))]
  exact registry_ne_docker _

/-- `docker://` without a name is accepted, and then displayed as the shorthand without one, which
    is refused. -/
theorem unverified_docker_not_readsBack :
    ∃ r, tryFrom "ostree-unverified-image:docker://" = .ok r ∧
      ¬ (r.imgref.name ≠ "" ∧ tryFrom r.display = .ok r) ∧
      tryFrom r.display = .error (.err "Invalid empty name in registry:") :=
  ⟨⟨.containerPolicyAllowInsecure, .registry, ""⟩, by decide⟩

end OstreeImageReference

end OstreeExt
