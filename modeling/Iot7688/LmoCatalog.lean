import Iot7688.Lib.Run
import Iot7688.Lmo

/-!
The catalogs of the translations: a list that is kept for the whole process, and a
pointer to the active one. A catalog has room for five characters of the name of its
language. A second load does not change the active catalog, and closing the active one
leaves the pointer where it is.
-/
namespace Iot7688.Lmo.Registry

open Lib
open Template (ascii)

/-- A catalog in memory, its archives with their file descriptors, and the language that
it was loaded for, which the code does not keep. -/
structure Catalog where
  address : ℕ
  lang : List Byte
  archives : List (LmoArchive × ℕ)
  loadedFor : List Byte

/-- The variables of the library, the descriptors that have been given out and those that
have been closed, and the language of the last successful load or change. -/
structure State where
  catalogs : List Catalog
  active : Option ℕ
  opened : ℕ
  closed : List ℕ
  wanted : Option (List Byte)

def State.init : State := ⟨[], none, 0, [], none⟩

/-- strncmp of two strings, at most n bytes of them, gives 0. -/
def strncmpEq : ℕ → List Byte → List Byte → Bool
  | 0, _, _ => true
  | _ + 1, [], [] => true
  | n + 1, a :: s, b :: t => a == b && strncmpEq n s t
  | _ + 1, _, _ => false

def langSize : ℕ := 6

def Catalog.named (cat : Catalog) (lang : List Byte) : Bool := strncmpEq langSize cat.lang lang

/-- The first catalog in the list with this name. -/
def State.find (s : State) (lang : List Byte) : Option Catalog :=
  s.catalogs.find? fun cat => cat.named lang

def lmoChangeCatalog (lang : List Byte) (s : State) : ℤ × State :=
  match s.find lang with
  | some cat => (0, { s with active := some cat.address, wanted := some lang })
  | none => (-1, s)

/-- The names of the files for a language. -/
def catalogPattern (lang : List Byte) : List Byte := (ascii "*." ++ lang ++ ascii ".lmo").take 15

/-- What opendir and malloc come to: nothing, or the address of the new catalog and the
files of the directory. -/
abbrev Dir : Type := Option (ℕ × List (List Byte × Mapping))

variable (fnmatch : List Byte → List Byte → Bool)

/-- The archives of the files whose names match. -/
def loadArchives (lang : List Byte) (files : List (List Byte × Mapping)) : List LmoArchive :=
  Lmo.lmoLoadCatalog ((files.filter fun de => fnmatch (catalogPattern lang) de.1).map Prod.snd)

def lmoLoadCatalog (lang : List Byte) (dir : Dir) (s : State) : ℤ × State :=
  if (lmoChangeCatalog lang s).1 = 0 then lmoChangeCatalog lang s
  else
    match dir with
    | none => (-1, s)
    | some (address, files) =>
        let archives := loadArchives fnmatch lang files
        let cat := ⟨address, lang.take (langSize - 1), archives.zipIdx s.opened, lang⟩
        (0, { s with
          catalogs := cat :: s.catalogs
          active := some (s.active.getD address)
          opened := s.opened + archives.length
          wanted := some lang })

def lmoCloseCatalog (lang : List Byte) (s : State) : State :=
  match s.find lang with
  | some cat =>
      { s with
        catalogs := s.catalogs.eraseP fun cat => cat.named lang
        closed := cat.archives.map Prod.snd ++ s.closed }
  | none => s

/-- A translation through the active pointer; through one that no longer leads to a
catalog it has no result. -/
def lmoTranslate (rounds : ℕ) (s : State) (key : List Byte) : Option (ℤ × List Byte) :=
  match s.active with
  | none => Lmo.lmoTranslate rounds none key
  | some address =>
      match s.catalogs.find? fun cat => cat.address == address with
      | none => none
      | some cat => Lmo.lmoTranslate rounds (some (cat.archives.map Prod.fst)) key

inductive Call
  | load (lang : List Byte) (dir : Dir)
  | change (lang : List Byte)
  | close (lang : List Byte)
  | translate (key : List Byte)

def step (s : State) : Call → State
  | .load lang dir => (lmoLoadCatalog fnmatch lang dir s).2
  | .change lang => (lmoChangeCatalog lang s).2
  | .close lang => lmoCloseCatalog lang s
  | .translate _ => s

/-- malloc gives out no memory that is in use. -/
def Call.Fresh (s : State) : Call → Prop
  | .load _ (some (address, _)) => ∀ cat ∈ s.catalogs, cat.address ≠ address
  | _ => True

/-- The active catalog is in the list, none is there twice for a language, translations
come from one for the language that was loaded or changed to last, and its archives are
open. -/
structure Consistent (s : State) : Prop where
  active : ∀ a, s.active = some a → ∃ cat ∈ s.catalogs, cat.address = a
  distinct : s.catalogs.Pairwise fun c d => c.loadedFor ≠ d.loadedFor
  wanted : ∀ lang, s.wanted = some lang →
    ∃ cat ∈ s.catalogs, s.active = some cat.address ∧ cat.loadedFor = lang
  reads : ∀ cat ∈ s.catalogs, s.active = some cat.address → ∀ ar ∈ cat.archives, ar.2 ∉ s.closed

/-- The call finds only a catalog that was loaded for its language, loads only while none
is active, and does not close the active one. -/
def Call.Keeps (s : State) : Call → Prop
  | .load lang dir =>
      match s.find lang with
      | some cat => cat.loadedFor = lang
      | none => dir = none ∨ s.active = none ∧ ∀ cat ∈ s.catalogs, cat.loadedFor ≠ lang
  | .change lang => ∀ cat, s.find lang = some cat → cat.loadedFor = lang
  | .close lang => ∀ cat, s.find lang = some cat → s.active ≠ some cat.address
  | .translate _ => True

/-- What all calls keep: catalogs lie apart, and their archives are open and their own. -/
structure Apart (s : State) : Prop where
  addresses : (s.catalogs.map Catalog.address).Nodup
  descriptors : ∀ cat ∈ s.catalogs, ∀ ar ∈ cat.archives, ar.2 < s.opened ∧ ar.2 ∉ s.closed
  archives : s.catalogs.Pairwise fun c d => ∀ x ∈ c.archives, ∀ y ∈ d.archives, x.2 ≠ y.2
  closed : ∀ fd ∈ s.closed, fd < s.opened

variable {fnmatch : List Byte → List Byte → Bool} {s : State} {lang : List Byte} {cat : Catalog}
variable {address : ℕ} {files : List (List Byte × Mapping)}

theorem Apart.same (h : Apart s) {c d : Catalog} (hc : c ∈ s.catalogs) (hd : d ∈ s.catalogs)
    (heq : c.address = d.address) : c = d :=
  List.inj_on_of_nodup_map h.addresses hc hd heq

/-- The catalogs around the one that is found. -/
theorem find_split (h : s.find lang = some cat) : ∃ front back,
    s.catalogs = front ++ cat :: back ∧
      (s.catalogs.eraseP fun cat => cat.named lang) = front ++ back := by
  obtain ⟨hnamed, front, back, heq, hfront⟩ := List.find?_eq_some_iff_append.mp h
  refine ⟨front, back, heq, ?_⟩
  rw [heq, List.eraseP_append_right _ (by simpa using hfront),
    List.eraseP_cons_of_pos (p := fun c : Catalog => c.named lang) hnamed]

theorem mem_of_find (h : s.find lang = some cat) : cat ∈ s.catalogs := List.mem_of_find?_eq_some h

/-- The state after a catalog became the active one. -/
def State.activate (s : State) (cat : Catalog) (lang : List Byte) : State :=
  { s with active := some cat.address, wanted := some lang }

def newCatalog (fnmatch : List Byte → List Byte → Bool) (s : State) (lang : List Byte) (address : ℕ)
    (files : List (List Byte × Mapping)) : Catalog :=
  ⟨address, lang.take (langSize - 1), (loadArchives fnmatch lang files).zipIdx s.opened, lang⟩

def State.add (s : State) (cat : Catalog) : State :=
  { s with
    catalogs := cat :: s.catalogs
    active := some (s.active.getD cat.address)
    opened := s.opened + cat.archives.length
    wanted := some cat.loadedFor }

theorem change_found (h : s.find lang = some cat) :
    lmoChangeCatalog lang s = (0, s.activate cat lang) := by
  rw [lmoChangeCatalog, h]
  rfl

theorem change_none (h : s.find lang = none) : lmoChangeCatalog lang s = (-1, s) := by
  rw [lmoChangeCatalog, h]

theorem load_found (h : s.find lang = some cat) (dir : Dir) :
    lmoLoadCatalog fnmatch lang dir s = (0, s.activate cat lang) := by
  unfold lmoLoadCatalog
  rw [change_found h]
  rfl

theorem load_none (h : s.find lang = none) : lmoLoadCatalog fnmatch lang none s = (-1, s) := by
  unfold lmoLoadCatalog
  rw [change_none h]
  rfl

theorem load_new (h : s.find lang = none) :
    lmoLoadCatalog fnmatch lang (some (address, files)) s =
      (0, s.add (newCatalog fnmatch s lang address files)) := by
  unfold lmoLoadCatalog
  rw [change_none h, State.add, newCatalog, List.length_zipIdx]
  rfl

/-- What a call does to the state. -/
theorem step_cases (fnmatch : List Byte → List Byte → Bool) (s : State) (call : Call) :
    step fnmatch s call = s ∨
    (∃ lang cat, s.find lang = some cat ∧ step fnmatch s call = s.activate cat lang) ∨
    (∃ lang address files, call = .load lang (some (address, files)) ∧ s.find lang = none ∧
      step fnmatch s call = s.add (newCatalog fnmatch s lang address files)) ∨
    ∃ lang, call = .close lang ∧ step fnmatch s call = lmoCloseCatalog lang s := by
  cases call with
  | load lang dir =>
    cases hfind : s.find lang with
    | some cat => exact .inr (.inl ⟨lang, cat, hfind, congrArg Prod.snd (load_found hfind dir)⟩)
    | none =>
      cases dir with
      | none => exact .inl (congrArg Prod.snd (load_none hfind))
      | some found =>
        obtain ⟨address, files⟩ := found
        exact .inr (.inr (.inl ⟨lang, address, files, rfl, hfind, congrArg Prod.snd (load_new hfind)⟩))
  | change lang =>
    cases hfind : s.find lang with
    | some cat => exact .inr (.inl ⟨lang, cat, hfind, congrArg Prod.snd (change_found hfind)⟩)
    | none => exact .inl (congrArg Prod.snd (change_none hfind))
  | close lang => exact .inr (.inr (.inr ⟨lang, rfl, rfl⟩))
  | translate key => exact .inl rfl

theorem Apart.add (h : Apart s) (hfresh : ∀ cat ∈ s.catalogs, cat.address ≠ address) :
    Apart (s.add (newCatalog fnmatch s lang address files)) := by
  have hnew : ∀ ar ∈ (newCatalog fnmatch s lang address files).archives,
      s.opened ≤ ar.2 ∧ ar.2 < s.opened + (newCatalog fnmatch s lang address files).archives.length := by
    intro ar har
    have hbounds := List.mem_zipIdx har
    rw [newCatalog, List.length_zipIdx]
    exact ⟨hbounds.1, hbounds.2.1⟩
  constructor
  · refine List.nodup_cons.mpr ⟨?_, h.addresses⟩
    rw [List.mem_map]
    rintro ⟨cat, hcat, heq⟩
    exact hfresh cat hcat heq
  · refine List.forall_mem_cons.mpr ⟨fun ar har => ⟨(hnew ar har).2, fun hclosed => ?_⟩,
      fun cat hcat ar har => ?_⟩
    · have hlow := (hnew ar har).1
      have hold := h.closed _ hclosed
      omega
    · obtain ⟨hlt, hopen⟩ := h.descriptors cat hcat ar har
      exact ⟨Nat.lt_add_right _ hlt, hopen⟩
  · refine List.pairwise_cons.mpr ⟨fun cat hcat x hx y hy => ?_, h.archives⟩
    have hlow := (hnew x hx).1
    have hold := (h.descriptors cat hcat y hy).1
    omega
  · exact fun fd hfd => Nat.lt_add_right _ (h.closed fd hfd)

theorem Apart.close (h : Apart s) (lang : List Byte) : Apart (lmoCloseCatalog lang s) := by
  rw [lmoCloseCatalog]
  cases hfind : s.find lang with
  | none => exact h
  | some cat =>
    dsimp only
    obtain ⟨front, back, heq, herase⟩ := find_split hfind
    have hsub : (front ++ back).Sublist s.catalogs := by
      rw [heq]
      exact (List.sublist_cons_self cat back).append_left front
    have hcat : cat ∈ s.catalogs := mem_of_find hfind
    have hother : ∀ c ∈ front ++ back, ∀ x ∈ c.archives, ∀ y ∈ cat.archives, x.2 ≠ y.2 := by
      have hpair := h.archives
      rw [heq, List.pairwise_middle] at hpair
      · exact fun c hc x hx y hy hxy => (List.pairwise_cons.mp hpair).1 c hc y hy x hx hxy.symm
      · exact fun {c d} hcd x hx y hy hxy => hcd y hy x hx hxy.symm
    rw [herase]
    refine ⟨(hsub.map _).nodup h.addresses, fun c hc ar har => ?_, h.archives.sublist hsub, ?_⟩
    · obtain ⟨hlt, hopen⟩ := h.descriptors c (hsub.subset hc) ar har
      refine ⟨hlt, fun hclosed => ?_⟩
      obtain hmem | hold := List.mem_append.mp hclosed
      · obtain ⟨y, hy, heq⟩ := List.mem_map.mp hmem
        exact hother c hc ar har y hy heq.symm
      · exact hopen hold
    · intro fd hfd
      obtain hmem | hold := List.mem_append.mp hfd
      · obtain ⟨y, hy, rfl⟩ := List.mem_map.mp hmem
        exact (h.descriptors cat hcat y hy).1
      · exact h.closed fd hold

theorem Apart.step (h : Apart s) {call : Call} (hfresh : call.Fresh s) :
    Apart (step fnmatch s call) := by
  obtain heq | ⟨lang, cat, -, heq⟩ | ⟨lang, address, files, rfl, -, heq⟩ | ⟨lang, -, heq⟩ :=
    step_cases fnmatch s call
  · rw [heq]
    exact h
  · rw [heq]
    exact ⟨h.addresses, h.descriptors, h.archives, h.closed⟩
  · rw [heq]
    exact h.add hfresh
  · rw [heq]
    exact h.close lang

theorem consistent_activate (hapart : Apart s) (h : Consistent s) (hfind : s.find lang = some cat) :
    Consistent (s.activate cat lang) ↔ cat.loadedFor = lang := by
  have hcat := mem_of_find hfind
  constructor
  · intro hnew
    obtain ⟨c, hc, hactive, hloaded⟩ := hnew.wanted lang rfl
    rw [hapart.same hcat hc (Option.some.inj hactive), hloaded]
  · intro hloaded
    refine ⟨fun a ha => ⟨cat, hcat, Option.some.inj ha⟩, h.distinct, fun l hl => ?_,
      fun c hc _ ar har => (hapart.descriptors c hc ar har).2⟩
    exact ⟨cat, hcat, rfl, hloaded.trans (Option.some.inj hl)⟩

theorem consistent_add (hapart : Apart s) (h : Consistent s)
    (hfresh : ∀ cat ∈ s.catalogs, cat.address ≠ address) :
    Consistent (s.add (newCatalog fnmatch s lang address files)) ↔
      s.active = none ∧ ∀ cat ∈ s.catalogs, cat.loadedFor ≠ lang := by
  have hapart' : Apart (s.add (newCatalog fnmatch s lang address files)) := hapart.add hfresh
  constructor
  · intro hnew
    have hother : ∀ c ∈ s.catalogs, lang ≠ c.loadedFor := (List.pairwise_cons.mp hnew.distinct).1
    obtain ⟨c, hc, hactive, hloaded⟩ := hnew.wanted lang rfl
    refine ⟨?_, fun c hc => (hother c hc).symm⟩
    obtain rfl | hc := List.mem_cons.mp hc
    · cases hold : s.active with
      | none => rfl
      | some a =>
        obtain ⟨d, hd, rfl⟩ := h.active a hold
        have hsame : some (s.active.getD address) = some address := hactive
        rw [hold] at hsame
        exact absurd (Option.some.inj hsame) (hfresh d hd)
    · exact absurd hloaded (hother c hc).symm
  · rintro ⟨hnone, hother⟩
    have hactive : (s.add (newCatalog fnmatch s lang address files)).active = some address := by
      show some (s.active.getD address) = some address
      rw [hnone]
      rfl
    refine ⟨fun a ha => ?_, List.pairwise_cons.mpr ⟨fun c hc => (hother c hc).symm, h.distinct⟩,
      fun l hl => ?_, fun c hc _ ar har => (hapart'.descriptors c hc ar har).2⟩
    · exact ⟨_, List.mem_cons_self, Option.some.inj (hactive.symm.trans ha)⟩
    · exact ⟨_, List.mem_cons_self, hactive, Option.some.inj hl⟩

theorem consistent_close (hapart : Apart s) (h : Consistent s) (hfind : s.find lang = some cat) :
    Consistent (lmoCloseCatalog lang s) ↔ s.active ≠ some cat.address := by
  have hapart' := hapart.close lang
  obtain ⟨front, back, heq, herase⟩ := find_split hfind
  have hstate : lmoCloseCatalog lang s = { s with
      catalogs := front ++ back, closed := cat.archives.map Prod.snd ++ s.closed } := by
    rw [lmoCloseCatalog, hfind, ← herase]
  have hmem : ∀ {c}, c ∈ front ++ back ↔ c ∈ s.catalogs ∧ c ≠ cat := by
    intro c
    have hnodup : (front ++ cat :: back).Nodup := heq ▸ hapart.addresses.of_map
    have hnot := (List.nodup_cons.mp (List.nodup_middle.mp hnodup)).1
    rw [heq, List.mem_append, List.mem_append, List.mem_cons]
    rw [List.mem_append] at hnot
    constructor
    · intro hc
      exact ⟨by tauto, fun h => hnot (h ▸ hc)⟩
    · rintro ⟨hc, hne⟩
      tauto
  rw [hstate] at hapart' ⊢
  constructor
  · rintro hnew hactive
    obtain ⟨c, hc, hsame⟩ := hnew.active _ hactive
    obtain ⟨hc, hne⟩ := hmem.mp hc
    exact hne (hapart.same hc (mem_of_find hfind) hsame)
  · intro hne
    refine ⟨fun a ha => ?_, ?_, fun l hl => ?_, fun c hc _ ar har => (hapart'.descriptors c hc ar har).2⟩
    · obtain ⟨c, hc, rfl⟩ := h.active a ha
      exact ⟨c, hmem.mpr ⟨hc, fun h => hne (h ▸ ha)⟩, rfl⟩
    · exact (heq ▸ h.distinct).sublist ((List.sublist_cons_self cat back).append_left front)
    · obtain ⟨c, hc, hactive, hloaded⟩ := h.wanted l hl
      exact ⟨c, hmem.mpr ⟨hc, fun h => hne (h ▸ hactive)⟩, hactive, hloaded⟩

/-- A call leaves the registry consistent exactly when it keeps to the condition. -/
theorem consistent_step (hapart : Apart s) (h : Consistent s) {call : Call}
    (hfresh : call.Fresh s) : Consistent (step fnmatch s call) ↔ call.Keeps s := by
  cases call with
  | load lang dir =>
    rw [step, Call.Keeps]
    cases hfind : s.find lang with
    | some cat =>
      rw [load_found hfind]
      exact consistent_activate hapart h hfind
    | none =>
      cases dir with
      | none =>
        rw [load_none hfind]
        exact iff_of_true h (.inl rfl)
      | some found =>
        obtain ⟨address, files⟩ := found
        rw [load_new hfind]
        refine (consistent_add hapart h hfresh).trans ?_
        simp
  | change lang =>
    rw [step, Call.Keeps]
    cases hfind : s.find lang with
    | some cat =>
      rw [change_found hfind]
      refine (consistent_activate hapart h hfind).trans ?_
      simp
    | none =>
      rw [change_none hfind]
      exact iff_of_true h fun cat hcat => (by cases hcat)
  | close lang =>
    rw [step, Call.Keeps]
    cases hfind : s.find lang with
    | some cat =>
      refine (consistent_close hapart h hfind).trans ?_
      simp
    | none =>
      rw [lmoCloseCatalog, hfind]
      exact iff_of_true h fun cat hcat => (by cases hcat)
  | translate key => exact iff_of_true h trivial

theorem apart_init : Apart State.init :=
  ⟨List.nodup_nil, fun _ h => (by cases h), .nil, fun _ h => (by cases h)⟩

theorem consistent_init : Consistent State.init :=
  ⟨fun _ h => (by cases h), .nil, fun _ h => (by cases h), fun _ h => (by cases h)⟩

/-- In a consistent state translations are those of the catalog for the language. -/
theorem Consistent.translate (h : Consistent s) (hapart : Apart s) (hlang : s.wanted = some lang) :
    ∃ cat ∈ s.catalogs, cat.loadedFor = lang ∧ ∀ rounds key, lmoTranslate rounds s key =
      Lmo.lmoTranslate rounds (some (cat.archives.map Prod.fst)) key := by
  obtain ⟨cat, hcat, hactive, hloaded⟩ := h.wanted lang hlang
  refine ⟨cat, hcat, hloaded, fun rounds key => ?_⟩
  have hlookup : (s.catalogs.find? fun c => c.address == cat.address) = some cat := by
    cases hfound : s.catalogs.find? fun c => c.address == cat.address with
    | none => exact absurd (beq_self_eq_true _) (List.find?_eq_none.mp hfound cat hcat)
    | some c =>
      have hsame : c.address = cat.address := by simpa using List.find?_some hfound
      rw [hapart.same (List.mem_of_find?_eq_some hfound) hcat hsame]
  rw [lmoTranslate, hactive]
  dsimp only
  rw [hlookup]

/-- Every catalog holds the archives of a load among the calls. -/
theorem loaded_run (fnmatch : List Byte → List Byte → Bool) (calls : List Call) :
    ∀ cat ∈ (calls.foldl (step fnmatch) State.init).catalogs, ∃ address files,
      Call.load cat.loadedFor (some (address, files)) ∈ calls ∧
        cat.archives.map Prod.fst = loadArchives fnmatch cat.loadedFor files := by
  induction calls using List.reverseRecOn with
  | nil => exact fun cat hcat => (by cases hcat)
  | append_singleton calls call ih =>
    rw [List.foldl_append, List.foldl_cons, List.foldl_nil]
    have hold : ∀ cat ∈ (calls.foldl (step fnmatch) State.init).catalogs, ∃ address files,
        Call.load cat.loadedFor (some (address, files)) ∈ calls ++ [call] ∧
          cat.archives.map Prod.fst = loadArchives fnmatch cat.loadedFor files := by
      intro cat hcat
      obtain ⟨address, files, hmem, heq⟩ := ih cat hcat
      exact ⟨address, files, List.mem_append_left _ hmem, heq⟩
    generalize calls.foldl (step fnmatch) State.init = s at hold ⊢
    obtain heq | ⟨lang, cat, -, heq⟩ | ⟨lang, address, files, rfl, -, heq⟩ | ⟨lang, -, heq⟩ :=
      step_cases fnmatch s call
    · rwa [heq]
    · rwa [heq]
    · rw [heq]
      refine List.forall_mem_cons.mpr ⟨⟨address, files, by simp [newCatalog], ?_⟩, hold⟩
      exact List.zipIdx_map_fst _ _
    · intro cat hcat
      apply hold
      rw [heq, lmoCloseCatalog] at hcat
      split at hcat
      · exact List.mem_of_mem_eraseP hcat
      · exact hcat

/-- The registry is consistent after every call of a run exactly when every call keeps to
the condition. -/
theorem registry_iff (fnmatch : List Byte → List Byte → Bool) (calls : List Call)
    (hfresh : Every (step fnmatch) (fun s call => call.Fresh s) State.init calls) :
    Every (step fnmatch) (fun s call => Consistent (step fnmatch s call)) State.init calls ↔
      Every (step fnmatch) (fun s call => call.Keeps s) State.init calls := by
  have hkeep : ∀ s call, Apart s ∧ Consistent s → Call.Fresh s call ∧ Call.Keeps s call →
      Apart (step fnmatch s call) ∧ Consistent (step fnmatch s call) := fun s call h hgood =>
    ⟨h.1.step hgood.1, (consistent_step h.1 h.2 hgood.1).mpr hgood.2⟩
  have hiff : ∀ s call, Apart s ∧ Consistent s →
      (Call.Fresh s call ∧ Consistent (step fnmatch s call) ↔ Call.Fresh s call ∧ Call.Keeps s call) :=
    fun s call h => and_congr_right fun hfresh => consistent_step h.1 h.2 hfresh
  have hboth := every_iff hkeep hiff calls ⟨apart_init, consistent_init⟩
  rw [every_and, every_and] at hboth
  exact ⟨fun h => (hboth.mp ⟨hfresh, h⟩).2, fun h => (hboth.mpr ⟨hfresh, h⟩).2⟩

/-- A language is loaded, and another one is closed. -/
def closeOther : List Call :=
  [.load (ascii "en") (some (1, [])), .close (ascii "de"), .translate (ascii "Save")]

theorem registry_iff_closeOther :
    Every (step fun _ _ => true) (fun s call => Consistent (step (fun _ _ => true) s call))
      State.init closeOther ↔
      Every (step fun _ _ => true) (fun s call => call.Keeps s) State.init closeOther :=
  registry_iff _ _ ⟨fun _ h => (by cases h), trivial, trivial, trivial⟩

def closeActive : List Call := [.load (ascii "en") (some (1, [])), .close (ascii "en")]

/-- After the active language was closed the pointer leads to freed memory. -/
theorem closeActive_dangles :
    Every (step fun _ _ => true) (fun s call => call.Fresh s) State.init closeActive ∧
    ¬Every (step fun _ _ => true) (fun s call => Consistent (step (fun _ _ => true) s call))
      State.init closeActive := by
  refine ⟨⟨fun _ h => (by cases h), trivial, trivial⟩, fun h => ?_⟩
  have hlast : Consistent (lmoCloseCatalog (ascii "en")
      (State.init.add (newCatalog (fun _ _ => true) State.init (ascii "en") 1 []))) := h.2.1
  obtain ⟨cat, hcat, -⟩ := hlast.active 1 rfl
  cases hcat

end Iot7688.Lmo.Registry
