import Iot7688.Lib.Fields
import Iot7688.Lib.Walk

/-!
Reading the erase blocks of a JFFS2 partition, on a little-endian host, and the scan of
mtd_write_jffs2. The scan goes from node to node by the length in each node, which nothing
checks: it comes to an end and stays inside of the block exactly when the chain of the nodes
does. The directory is the last entry of the root whose name is a prefix of the wanted one.
-/
namespace Iot7688.Jffs2

open Lib

def jffs2MagicBitmask : ℕ := 0x1985
def ksamtibCigam2sffj : ℕ := 0x8519
def jffs2NodetypeDirent : ℕ := 0xe001

/-- The places of the fields in struct jffs2_raw_dirent. -/
def magicField : ℕ := 0
def nodetypeField : ℕ := 2
def totlenField : ℕ := 4
def pinoField : ℕ := 12
def versionField : ℕ := 16
def inoField : ℕ := 20
def nsizeField : ℕ := 28
def nameField : ℕ := 40

/-- PAD, on 32-bit numbers. -/
def pad (x : ℕ) : ℕ := (x + 3) % 2 ^ 32 / 4 * 4

/-- The static variables that a scan sets, as bit patterns. -/
structure Scan where
  targetIno : ℕ
  lastIno : ℕ
  lastVersion : ℕ
deriving DecidableEq

/-- strncmp of a name in the rest of a block with a string; no result when it runs past
the block. -/
def strncmpEq : ℕ → List Byte → List Byte → Option Bool
  | 0, _, _ => some true
  | _ + 1, [], _ => none
  | _ + 1, a :: _, [] => some (a == 0)
  | n + 1, a :: name, b :: dir =>
      if a ≠ b then some false else if a = 0 then some true else strncmpEq n name dir

/-- The test for the directory, on the dirent at ofs. -/
def dirMatches (dir block : List Byte) (ofs : ℕ) : Option Bool :=
  if dir = [] then some false
  else do
    let pino ← load block (ofs + pinoField) 4
    if pino ≠ 1 then some false
    else do
      let nsize ← load block (ofs + nsizeField) 1
      strncmpEq nsize (block.drop (ofs + nameField)) dir

/-- The part of the loop for a dirent. -/
def parseDirent (dir block : List Byte) (ofs : ℕ) (s : Scan) : Option Scan := do
  let found ← dirMatches dir block ofs
  let ino ← load block (ofs + inoField) 4
  let version ← load block (ofs + versionField) 4
  some
    { targetIno := if found then ino else s.targetIno
      lastIno := if s.lastIno < ino then ino else s.lastIno
      lastVersion := if s.lastVersion < version then version else s.lastVersion }

/-- One round of the loop: the next offset unless it breaks, and the variables. -/
def parseNode (dir block : List Byte) (ofs : ℕ) (s : Scan) : Option (Option ℕ × Scan) := do
  let magic ← load block (ofs + magicField) 2
  if magic ≠ jffs2MagicBitmask then some (none, s)
  else do
    let totlen ← load block (ofs + totlenField) 4
    let nodetype ← load block (ofs + nodetypeField) 2
    let s ← (if nodetype = jffs2NodetypeDirent then parseDirent dir block ofs s else some s)
    some (some ((ofs + pad totlen) % 2 ^ 32), s)

/-- The loop of mtd_parse_jffs2data from the given offset; no result when it reads a
byte that is not in the block, or when it needs more rounds. -/
def parseFrom (dir block : List Byte) : ℕ → ℕ → Scan → Option Scan
  | 0, _, _ => none
  | rounds + 1, ofs, s =>
      if ofs < block.length then
        match parseNode dir block ofs s with
        | none => none
        | some (none, s) => some s
        | some (some ofs, s) => parseFrom dir block rounds ofs s
      else some s

/-- mtd_parse_jffs2data ends with the given variables and reads only bytes of the block. -/
def Parses (dir block : List Byte) (s t : Scan) : Prop :=
  ∃ rounds, parseFrom dir block rounds 0 s = some t

def nodeMagic (block : List Byte) (ofs : ℕ) : Prop :=
  field block (ofs + magicField) 2 = jffs2MagicBitmask

instance (block : List Byte) (ofs : ℕ) : Decidable (nodeMagic block ofs) :=
  inferInstanceAs (Decidable (_ = _))

def isDirent (block : List Byte) (ofs : ℕ) : Prop :=
  field block (ofs + nodetypeField) 2 = jffs2NodetypeDirent

instance (block : List Byte) (ofs : ℕ) : Decidable (isDirent block ofs) :=
  inferInstanceAs (Decidable (_ = _))

/-- From one node to the next; without the magic the scan is over. -/
def nextNode (block : List Byte) (ofs : ℕ) : Option ℕ :=
  if ofs < block.length then
    some (if nodeMagic block ofs then (ofs + pad (field block (ofs + totlenField) 4)) % 2 ^ 32
      else block.length)
  else none

/-- The fields that the scan looks at in a dirent are in the block, and so is its name as
far as it agrees with the directory. -/
structure DirentInside (dir block : List Byte) (ofs : ℕ) : Prop where
  fields : ofs + inoField + 4 ≤ block.length
  size : dir ≠ [] → field block (ofs + pinoField) 4 = 1 → ofs + nsizeField + 1 ≤ block.length
  name : dir ≠ [] → field block (ofs + pinoField) 4 = 1 →
    field block (ofs + nsizeField) 1 ≤ (block.drop (ofs + nameField)).length ∨
      ¬block.drop (ofs + nameField) <+: dir

/-- What the scan looks at from the given offset is in the block. -/
structure NodeInside (dir block : List Byte) (ofs : ℕ) : Prop where
  magic : ofs + magicField + 2 ≤ block.length
  head : nodeMagic block ofs → ofs + totlenField + 4 ≤ block.length
  dirent : nodeMagic block ofs → isDirent block ofs → DirentInside dir block ofs

variable {dir block : List Byte} {ofs : ℕ}

theorem strncmpEq_isSome (hdir : 0 ∉ dir) (n : ℕ) (name : List Byte) :
    (strncmpEq n name dir).isSome ↔ n ≤ name.length ∨ ¬name <+: dir := by
  induction n generalizing name dir with
  | zero => simp [strncmpEq]
  | succ n ih =>
    cases name with
    | nil => simp [strncmpEq]
    | cons a name =>
      cases dir with
      | nil => simp [strncmpEq]
      | cons b dir =>
        rw [List.mem_cons, not_or] at hdir
        unfold strncmpEq
        by_cases hab : a = b
        · have ha : a ≠ 0 := fun h => hdir.1 (h.symm.trans hab)
          rw [if_neg (not_not.mpr hab), if_neg ha, ih hdir.2, List.length_cons,
            List.cons_prefix_cons, Nat.add_le_add_iff_right]
          simp [hab]
        · rw [if_pos hab, List.cons_prefix_cons]
          simp [hab]

theorem dirMatches_isSome (hdir : 0 ∉ dir)
    (hino : ofs + inoField + 4 ≤ block.length) :
    (dirMatches dir block ofs).isSome ↔ DirentInside dir block ofs := by
  have hpino : ofs + pinoField + 4 ≤ block.length := by
    unfold inoField at hino
    unfold pinoField
    omega
  unfold dirMatches
  by_cases hempty : dir = []
  · rw [if_pos hempty]
    exact ⟨fun _ => ⟨hino, fun h => absurd hempty h, fun h => absurd hempty h⟩, fun _ => rfl⟩
  · rw [if_neg hempty, load_of_le hpino, Option.bind_eq_bind, Option.bind_some]
    by_cases hroot : field block (ofs + pinoField) 4 = 1
    · rw [if_neg (not_not.mpr hroot)]
      by_cases hsize : ofs + nsizeField + 1 ≤ block.length
      · rw [load_of_le hsize, Option.bind_some, strncmpEq_isSome hdir]
        exact ⟨fun h => ⟨hino, fun _ _ => hsize, fun _ _ => h⟩, fun h => h.name hempty hroot⟩
      · rw [load_of_lt (by omega)]
        exact ⟨fun h => (by cases h), fun h => absurd (h.size hempty hroot) hsize⟩
    · rw [if_pos hroot]
      exact ⟨fun _ => ⟨hino, fun _ h => absurd h hroot, fun _ h => absurd h hroot⟩, fun _ => rfl⟩

/-- What a dirent leaves in the variables. -/
def noteDirent (block : List Byte) (ofs : ℕ) (found : Bool) (s : Scan) : Scan where
  targetIno := if found then field block (ofs + inoField) 4 else s.targetIno
  lastIno := max s.lastIno (field block (ofs + inoField) 4)
  lastVersion := max s.lastVersion (field block (ofs + versionField) 4)

theorem parseDirent_eq {s : Scan} {found : Bool} (hino : ofs + inoField + 4 ≤ block.length)
    (hfound : dirMatches dir block ofs = some found) :
    parseDirent dir block ofs s = some (noteDirent block ofs found s) := by
  have hversion : ofs + versionField + 4 ≤ block.length := by
    unfold inoField at hino
    unfold versionField
    omega
  have hmax (a b : ℕ) : (if a < b then b else a) = max a b := by
    rw [max_def]
    split <;> split <;> omega
  unfold parseDirent noteDirent
  rw [hfound, load_of_le hino, load_of_le hversion, ← hmax, ← hmax]
  rfl

theorem parseDirent_isSome (hdir : 0 ∉ dir) (s : Scan) :
    (parseDirent dir block ofs s).isSome ↔ DirentInside dir block ofs := by
  by_cases hino : ofs + inoField + 4 ≤ block.length
  · rw [← dirMatches_isSome hdir hino]
    cases hfound : dirMatches dir block ofs with
    | none =>
      unfold parseDirent
      rw [hfound]
      exact Iff.rfl
    | some found =>
      rw [parseDirent_eq hino hfound]
      exact Iff.rfl
  · refine ⟨fun h => ?_, fun h => absurd h.fields hino⟩
    unfold parseDirent at h
    rw [load_of_lt (by omega)] at h
    cases hfound : dirMatches dir block ofs with
    | none => rw [hfound] at h; cases h
    | some found => rw [hfound] at h; cases h

/-- A round that stays in the block goes on exactly when there is a node. -/
theorem parseNode_inside (hdir : 0 ∉ dir) (s : Scan) (h : NodeInside dir block ofs) :
    (¬nodeMagic block ofs ∧ parseNode dir block ofs s = some (none, s)) ∨
      (nodeMagic block ofs ∧ ∃ t, parseNode dir block ofs s =
        some (some ((ofs + pad (field block (ofs + totlenField) 4)) % 2 ^ 32), t) ∧
        (¬isDirent block ofs → t = s) ∧
        (isDirent block ofs → parseDirent dir block ofs s = some t)) := by
  unfold parseNode
  rw [load_of_le h.magic, Option.bind_eq_bind, Option.bind_some]
  by_cases hmagic : nodeMagic block ofs
  · have hhead := h.head hmagic
    have htype : ofs + nodetypeField + 2 ≤ block.length := by
      unfold totlenField at hhead
      unfold nodetypeField
      omega
    refine Or.inr ⟨hmagic, ?_⟩
    have hgo : ¬field block (ofs + magicField) 2 ≠ jffs2MagicBitmask := not_not.mpr hmagic
    rw [if_neg hgo, load_of_le hhead, load_of_le htype, Option.bind_some, Option.bind_some]
    by_cases hdirent : isDirent block ofs
    · obtain ⟨t, ht⟩ := Option.isSome_iff_exists.mp
        ((parseDirent_isSome hdir s).mpr (h.dirent hmagic hdirent))
      rw [if_pos (show field _ _ _ = _ from hdirent), ht]
      exact ⟨t, rfl, fun hno => absurd hdirent hno, fun _ => rfl⟩
    · rw [if_neg (show ¬field _ _ _ = _ from hdirent)]
      exact ⟨s, rfl, fun _ => rfl, fun hd => absurd hd hdirent⟩
  · rw [if_pos (show field _ _ _ ≠ _ from hmagic)]
    exact Or.inl ⟨hmagic, rfl⟩

/-- A round that reads something else has no result. -/
theorem parseNode_outside (hdir : 0 ∉ dir) (s : Scan) (h : ¬NodeInside dir block ofs) :
    parseNode dir block ofs s = none := by
  unfold parseNode
  by_cases hmagic : ofs + magicField + 2 ≤ block.length
  · rw [load_of_le hmagic, Option.bind_eq_bind, Option.bind_some]
    by_cases hnode : nodeMagic block ofs
    · have hgo : ¬field block (ofs + magicField) 2 ≠ jffs2MagicBitmask := not_not.mpr hnode
      rw [if_neg hgo]
      by_cases hhead : ofs + totlenField + 4 ≤ block.length
      · have htype : ofs + nodetypeField + 2 ≤ block.length := by
          unfold totlenField at hhead
          unfold nodetypeField
          omega
        rw [load_of_le hhead, load_of_le htype, Option.bind_some, Option.bind_some]
        by_cases hdirent : isDirent block ofs
        · have hno : ¬(parseDirent dir block ofs s).isSome := fun hsome =>
            h ⟨hmagic, fun _ => hhead, fun _ _ => (parseDirent_isSome hdir s).mp hsome⟩
          rw [if_pos (show field _ _ _ = _ from hdirent), Option.not_isSome_iff_eq_none.mp hno]
          rfl
        · exact absurd ⟨hmagic, fun _ => hhead, fun _ hd => absurd hd hdirent⟩ h
      · rw [load_of_lt (by omega)]
        rfl
    · exact absurd ⟨hmagic, fun hn => absurd hn hnode, fun hn => absurd hn hnode⟩ h
  · rw [load_of_lt (by omega)]
    rfl

theorem nextNode_of_node (hlt : ofs < block.length) (hmagic : nodeMagic block ofs) :
    nextNode block ofs = some ((ofs + pad (field block (ofs + totlenField) 4)) % 2 ^ 32) := by
  unfold nextNode
  rw [if_pos hlt, if_pos hmagic]

theorem nextNode_of_break (hlt : ofs < block.length) (hmagic : ¬nodeMagic block ofs) :
    nextNode block ofs = some block.length := by
  unfold nextNode
  rw [if_pos hlt, if_neg hmagic]

theorem nextNode_past (hle : block.length ≤ ofs) : nextNode block ofs = none :=
  if_neg (by omega)

/-- One round of the loop, at a place inside of the block. -/
theorem parseFrom_succ (hlt : ofs < block.length) (rounds : ℕ) (s : Scan) :
    parseFrom dir block (rounds + 1) ofs s =
      match parseNode dir block ofs s with
      | none => none
      | some (none, s) => some s
      | some (some ofs, s) => parseFrom dir block rounds ofs s := if_pos hlt

theorem parseFrom_past (hle : block.length ≤ ofs) (rounds : ℕ) (s : Scan) :
    parseFrom dir block (rounds + 1) ofs s = some s := if_neg (by omega)

theorem walk_of_parseFrom (hdir : 0 ∉ dir) {rounds : ℕ} {s t : Scan}
    (h : parseFrom dir block rounds ofs s = some t) :
    ∃ os, Walk (nextNode block) ofs os ∧ ∀ o ∈ os, NodeInside dir block o := by
  induction rounds generalizing ofs s with
  | zero => cases h
  | succ rounds ih =>
    by_cases hlt : ofs < block.length
    · rw [parseFrom_succ hlt] at h
      by_cases hinside : NodeInside dir block ofs
      · rcases parseNode_inside hdir s hinside with ⟨hmagic, hbreak⟩ | ⟨hmagic, u, hnode, _⟩
        · exact ⟨[ofs], Walk.next (nextNode_of_break hlt hmagic)
            (Walk.stop (nextNode_past (le_refl _))), by simpa using hinside⟩
        · rw [hnode] at h
          obtain ⟨os, hwalk, hall⟩ := ih h
          exact ⟨ofs :: os, Walk.next (nextNode_of_node hlt hmagic) hwalk,
            List.forall_mem_cons.mpr ⟨hinside, hall⟩⟩
      · rw [parseNode_outside hdir s hinside] at h
        cases h
    · exact ⟨[], Walk.stop (nextNode_past (by omega)), fun o ho => by cases ho⟩

theorem parseFrom_of_walk (hdir : 0 ∉ dir) {os : List ℕ} (hwalk : Walk (nextNode block) ofs os)
    (hall : ∀ o ∈ os, NodeInside dir block o) {rounds : ℕ} (hrounds : os.length < rounds)
    (s : Scan) : (parseFrom dir block rounds ofs s).isSome := by
  induction hwalk generalizing rounds s with
  | @stop ofs hstop =>
    obtain ⟨rounds, rfl⟩ := Nat.exists_eq_add_of_lt hrounds
    have hle : block.length ≤ ofs := by
      by_contra hlt
      unfold nextNode at hstop
      rw [if_pos (by omega)] at hstop
      cases hstop
    rw [parseFrom_past hle]
    rfl
  | @next ofs ofs' os hnext hrest ih =>
    obtain ⟨rounds, rfl⟩ := Nat.exists_eq_add_of_lt hrounds
    have hlt : ofs < block.length := by
      by_contra hle
      rw [nextNode_past (by omega)] at hnext
      cases hnext
    rw [List.forall_mem_cons] at hall
    rw [parseFrom_succ hlt]
    rcases parseNode_inside hdir s hall.1 with ⟨_, hbreak⟩ | ⟨hmagic, t, hnode, _⟩
    · rw [hbreak]
      rfl
    · rw [nextNode_of_node hlt hmagic] at hnext
      obtain rfl := Option.some.inj hnext
      rw [hnode]
      exact ih hall.2 (by rw [List.length_cons]; omega) t

theorem walk_length_le {os : List ℕ} (hwalk : Walk (nextNode block) ofs os) :
    os.length ≤ block.length := by
  refine hwalk.length_le fun o ho => ?_
  by_contra hle
  have hstep := hwalk.step_of_mem ho
  rw [nextNode_past (by omega)] at hstep
  cases hstep

/-- mtd_parse_jffs2data comes to an end inside of the block exactly when the chain of the
nodes does, and then after at most one round for each byte. -/
theorem parse_jffs2data_iff (hdir : 0 ∉ dir) (s : Scan) :
    ((∃ t, Parses dir block s t) ↔
      ∃ os, Walk (nextNode block) 0 os ∧ ∀ o ∈ os, NodeInside dir block o) ∧
    ((∃ t, Parses dir block s t) → (parseFrom dir block (block.length + 1) 0 s).isSome) := by
  have hiff : (∃ t, Parses dir block s t) ↔
      ∃ os, Walk (nextNode block) 0 os ∧ ∀ o ∈ os, NodeInside dir block o := by
    constructor
    · rintro ⟨t, rounds, h⟩
      exact walk_of_parseFrom hdir h
    · rintro ⟨os, hwalk, hall⟩
      obtain ⟨t, ht⟩ := Option.isSome_iff_exists.mp
        (parseFrom_of_walk hdir hwalk hall (Nat.lt_succ_self _) s)
      exact ⟨t, _, ht⟩
  refine ⟨hiff, fun h => ?_⟩
  obtain ⟨os, hwalk, hall⟩ := hiff.mp h
  exact parseFrom_of_walk hdir hwalk hall (Nat.lt_succ_of_le (walk_length_le hwalk)) s

/-- An erase block with one node and the rest erased. -/
def oneNode (totlen rest : ℕ) : List Byte :=
  [0x85, 0x19, 0x03, 0x20] ++ leBytes 4 totlen ++ List.replicate rest 0xff

theorem oneNode_length (totlen rest : ℕ) : (oneNode totlen rest).length = 8 + rest := by
  simp [oneNode]
  omega

theorem oneNode_magic (totlen rest : ℕ) : nodeMagic (oneNode totlen rest) 0 := by
  simp [nodeMagic, field, Lib.segment, oneNode, leValue, magicField, jffs2MagicBitmask]

theorem oneNode_erased (totlen : ℕ) {rest : ℕ} (h : 6 ≤ rest) :
    ¬nodeMagic (oneNode totlen rest) 12 := by
  have hmin : min 2 (rest - 4) = 2 := by omega
  have hword : segment (oneNode totlen rest) (12 + magicField) 2 = [0xff, 0xff] := by
    simp [Lib.segment, oneNode, leBytes, magicField, hmin, List.replicate_succ]
  unfold nodeMagic field
  rw [hword]
  decide

theorem oneNode_next {totlen : ℕ} (h : totlen < 2 ^ 32) (rest : ℕ) :
    nextNode (oneNode totlen rest) 0 = some (pad totlen % 2 ^ 32) := by
  have hlen : field (oneNode totlen rest) (0 + totlenField) 4 = totlen := by
    have hword : segment (oneNode totlen rest) (0 + totlenField) 4 = leBytes 4 totlen := by
      simp [Lib.segment, oneNode, totlenField]
    unfold field
    rw [hword, leValue_leBytes]
    omega
  rw [nextNode_of_node (by rw [oneNode_length]; omega) (oneNode_magic totlen rest), hlen,
    Nat.zero_add]

theorem oneNode_not_dirent (totlen rest : ℕ) : ¬isDirent (oneNode totlen rest) 0 := by
  simp [isDirent, field, Lib.segment, oneNode, leValue, nodetypeField, jffs2NodetypeDirent]

theorem parse_jffs2data_oneNode : ∃ t, Parses [] (oneNode 12 65528) ⟨0, 0, 0⟩ t := by
  have herased := oneNode_erased 12 (show 6 ≤ 65528 by omega)
  refine (parse_jffs2data_iff (fun h => (by cases h)) _).1.mpr ⟨[0, 12], ?_, ?_⟩
  · have hbreak := nextNode_of_break (by rw [oneNode_length]; omega) herased
    exact Walk.next (oneNode_next (by omega) 65528) (Walk.next hbreak
      (Walk.stop (nextNode_past (le_refl _))))
  · intro o ho
    rcases List.mem_cons.mp ho with rfl | ho
    · refine ⟨?_, fun _ => ?_, fun _ hd => absurd hd (oneNode_not_dirent 12 65528)⟩
      · rw [oneNode_length]
        decide
      · rw [oneNode_length]
        decide
    · obtain rfl := List.mem_singleton.mp ho
      refine ⟨?_, fun hn => absurd hn herased, fun hn => absurd hn herased⟩
      rw [oneNode_length]
      decide

/-- A node of length zero is looked at again and again. -/
theorem zero_length_runs_forever : ¬∃ t, Parses [] (oneNode 0 65528) ⟨0, 0, 0⟩ t := by
  rintro ⟨t, rounds, h⟩
  obtain ⟨os, hwalk, _⟩ := walk_of_parseFrom (fun h => (by cases h)) h
  have hnext : nextNode (oneNode 0 65528) 0 = some 0 := oneNode_next (by omega) 65528
  cases hwalk with
  | stop hstop => rw [hnext] at hstop; cases hstop
  | @next _ b as hb hrest =>
    rw [hnext] at hb
    obtain rfl := Option.some.inj hb
    have hlen := congrArg List.length (hrest.unique (Walk.next hnext hrest))
    rw [List.length_cons] at hlen
    omega

structure Dirent where
  pino : ℕ
  version : ℕ
  ino : ℕ
  name : List Byte
deriving DecidableEq

def direntAt (block : List Byte) (ofs : ℕ) : Dirent where
  pino := field block (ofs + pinoField) 4
  version := field block (ofs + versionField) 4
  ino := field block (ofs + inoField) 4
  name := segment block (ofs + nameField) (field block (ofs + nsizeField) 1)

/-- An erase block whose nodes, with the places they start at, lie inside of it, and whose
dirents do with their names. -/
structure LogBlock where
  bytes : List Byte
  nodes : List ℕ
  walk : Walk (nextNode bytes) 0 nodes
  inside : ∀ o ∈ nodes, o + magicField + 2 ≤ bytes.length
  head : ∀ o ∈ nodes, nodeMagic bytes o → o + totlenField + 4 ≤ bytes.length
  whole : ∀ o ∈ nodes, nodeMagic bytes o → isDirent bytes o →
    o + nameField + field bytes (o + nsizeField) 1 ≤ bytes.length
  noNul : ∀ o ∈ nodes, nodeMagic bytes o → isDirent bytes o → 0 ∉ (direntAt bytes o).name

def LogBlock.dirents (b : LogBlock) : List Dirent :=
  (b.nodes.filter fun o => nodeMagic b.bytes o ∧ isDirent b.bytes o).map (direntAt b.bytes)

/-- An entry that the test for the directory accepts. -/
def Matches (dir : List Byte) (d : Dirent) : Prop := d.pino = 1 ∧ d.name <+: dir

instance (dir : List Byte) (d : Dirent) : Decidable (Matches dir d) :=
  inferInstanceAs (Decidable (_ ∧ _))

def note (dir : List Byte) (s : Scan) (d : Dirent) : Scan where
  targetIno := if Matches dir d then d.ino else s.targetIno
  lastIno := max s.lastIno d.ino
  lastVersion := max s.lastVersion d.version

/-- How the loop over the blocks ends. -/
inductive ScanEnd
  | noRoom
  | wrongEndian
  | found
deriving DecidableEq

/-- The loop of mtd_write_jffs2 that reads and parses the blocks, with mtdofs. A parse
that does not end within a round for each byte does not end at all. -/
def scanBlocks (dir : List Byte) (erasesize : ℕ) :
    List (List Byte) → ℕ → Scan → Option (ScanEnd × ℕ × Scan)
  | [], mtdofs, s => some (.noRoom, mtdofs, s)
  | block :: blocks, mtdofs, s =>
      if block.length ≠ erasesize then some (.noRoom, mtdofs, s)
      else do
        let magic ← load block magicField 2
        if magic = ksamtibCigam2sffj then some (.wrongEndian, mtdofs + erasesize, s)
        else if magic ≠ jffs2MagicBitmask then some (.found, mtdofs + erasesize, s)
        else do
          let s ← parseFrom dir block (block.length + 1) 0 s
          scanBlocks dir erasesize blocks (mtdofs + erasesize) s

def scan (dir : List Byte) (erasesize : ℕ) (blocks : List (List Byte)) :
    Option (ScanEnd × ℕ × Scan) :=
  scanBlocks dir erasesize blocks 0 ⟨if dir = [] then 1 else 0, 0, 0⟩

theorem strncmpEq_eq (n : ℕ) (name : List Byte) (hn : n ≤ name.length) (h0 : 0 ∉ name.take n) :
    strncmpEq n name dir = some (decide (name.take n <+: dir)) := by
  induction n generalizing name dir with
  | zero => simp [strncmpEq]
  | succ n ih =>
    cases name with
    | nil => simp at hn
    | cons a name =>
      rw [List.take_succ_cons, List.mem_cons, not_or] at h0
      rw [List.take_succ_cons]
      cases dir with
      | nil =>
        unfold strncmpEq
        simpa using fun h => h0.1 h.symm
      | cons b dir =>
        unfold strncmpEq
        by_cases hab : a = b
        · rw [if_neg (not_not.mpr hab), if_neg fun h => h0.1 h.symm, ih name (by simpa using hn) h0.2,
            Option.some_inj, decide_eq_decide, List.cons_prefix_cons]
          simp [hab]
        · rw [if_pos hab, Option.some_inj, eq_comm, decide_eq_false_iff_not, List.cons_prefix_cons]
          exact fun h => hab h.1

namespace LogBlock

variable (b : LogBlock) {o : ℕ}

theorem direntInside (dir : List Byte) (ho : o ∈ b.nodes) (hmagic : nodeMagic b.bytes o)
    (hdirent : isDirent b.bytes o) : DirentInside dir b.bytes o := by
  have hwhole := b.whole o ho hmagic hdirent
  unfold nameField at hwhole
  refine ⟨?_, fun _ _ => ?_, fun _ _ => Or.inl ?_⟩
  · unfold inoField
    omega
  · unfold nsizeField
    omega
  · unfold nameField
    rw [List.length_drop]
    omega

theorem nodeInside (dir : List Byte) (ho : o ∈ b.nodes) : NodeInside dir b.bytes o :=
  ⟨b.inside o ho, b.head o ho, b.direntInside dir ho⟩

theorem dirMatches_eq (hdir : dir ≠ []) (ho : o ∈ b.nodes) (hmagic : nodeMagic b.bytes o)
    (hdirent : isDirent b.bytes o) :
    dirMatches dir b.bytes o = some (decide (Matches dir (direntAt b.bytes o))) := by
  have hwhole := b.whole o ho hmagic hdirent
  have hinside := b.direntInside dir ho hmagic hdirent
  have hpino : o + pinoField + 4 ≤ b.bytes.length := by
    unfold nameField at hwhole
    unfold pinoField
    omega
  unfold dirMatches
  rw [if_neg hdir, load_of_le hpino, Option.bind_eq_bind, Option.bind_some]
  by_cases hroot : field b.bytes (o + pinoField) 4 = 1
  · rw [if_neg (not_not.mpr hroot), load_of_le (hinside.size hdir hroot), Option.bind_some,
      strncmpEq_eq _ _ (by rw [List.length_drop]; omega) (b.noNul o ho hmagic hdirent),
      Option.some_inj, decide_eq_decide]
    exact ⟨fun h => ⟨hroot, h⟩, fun h => h.2⟩
  · rw [if_pos hroot, Option.some_inj, eq_comm, decide_eq_false_iff_not]
    exact fun h => hroot h.1

/-- A round on a node of the block. -/
theorem parseNode_eq (hdir : dir ≠ []) (h0 : 0 ∉ dir) (ho : o ∈ b.nodes) (s : Scan) :
    parseNode dir b.bytes o s =
      if nodeMagic b.bytes o then
        some (some ((o + pad (field b.bytes (o + totlenField) 4)) % 2 ^ 32),
          if isDirent b.bytes o then note dir s (direntAt b.bytes o) else s)
      else some (none, s) := by
  rcases parseNode_inside h0 s (b.nodeInside dir ho) with ⟨hmagic, hparse⟩ |
    ⟨hmagic, t, hparse, hother, hdirent⟩
  · rw [if_neg hmagic, hparse]
  · rw [if_pos hmagic, hparse]
    by_cases hd : isDirent b.bytes o
    · have hparsed := hdirent hd
      rw [parseDirent_eq (b.direntInside dir ho hmagic hd).fields
        (b.dirMatches_eq hdir ho hmagic hd), Option.some_inj] at hparsed
      rw [if_pos hd, ← hparsed]
      unfold noteDirent note
      simp only [decide_eq_true_eq]
      rfl
    · rw [if_neg hd, hother hd]

/-- Parsing the block is a fold over its dirents. -/
theorem parseFrom_eq (hdir : dir ≠ []) (h0 : 0 ∉ dir) (s : Scan) :
    parseFrom dir b.bytes (b.bytes.length + 1) 0 s = some (b.dirents.foldl (note dir) s) := by
  have hfrom : ∀ (ofs : ℕ) (os : List ℕ), Walk (nextNode b.bytes) ofs os → (∀ o ∈ os, o ∈ b.nodes) →
      ∀ rounds s, os.length < rounds → parseFrom dir b.bytes rounds ofs s =
        some (((os.filter fun o => nodeMagic b.bytes o ∧ isDirent b.bytes o).map
          (direntAt b.bytes)).foldl (note dir) s) := by
    intro ofs os hwalk
    induction hwalk with
    | @stop ofs hstop =>
      intro _ rounds s hrounds
      obtain ⟨rounds, rfl⟩ := Nat.exists_eq_add_of_lt hrounds
      rw [parseFrom_past]
      · rfl
      · by_contra hlt
        unfold nextNode at hstop
        rw [if_pos (by omega)] at hstop
        cases hstop
    | @next ofs ofs' os hnext hrest ih =>
      intro hmem rounds s hrounds
      obtain ⟨rounds, rfl⟩ := Nat.exists_eq_add_of_lt hrounds
      rw [List.forall_mem_cons] at hmem
      have hlt : ofs < b.bytes.length := by
        by_contra hle
        rw [nextNode_past (by omega)] at hnext
        cases hnext
      rw [parseFrom_succ hlt, b.parseNode_eq hdir h0 hmem.1]
      by_cases hmagic : nodeMagic b.bytes ofs
      · rw [nextNode_of_node hlt hmagic] at hnext
        obtain rfl := Option.some.inj hnext
        rw [if_pos hmagic]
        dsimp only
        rw [ih hmem.2 _ _ (by rw [List.length_cons]; omega)]
        by_cases hd : isDirent b.bytes ofs
        · rw [if_pos hd, List.filter_cons_of_pos (by simp [hmagic, hd]), List.map_cons,
            List.foldl_cons]
        · rw [if_neg hd, List.filter_cons_of_neg (by simp [hd])]
      · rw [nextNode_of_break hlt hmagic] at hnext
        obtain rfl := Option.some.inj hnext
        have hnil : os = [] := hrest.unique (Walk.stop (nextNode_past (le_refl _)))
        rw [if_neg hmagic, hnil, List.filter_cons_of_neg (by simp [hmagic])]
        rfl
  exact hfrom 0 b.nodes b.walk (fun o ho => ho) _ s (Nat.lt_succ_of_le (walk_length_le b.walk))

end LogBlock

/-- The dirents of a file system, in the order of the log. -/
def direntsOf (blocks : List LogBlock) : List Dirent := blocks.flatMap LogBlock.dirents

/-- Blocks of a file system and the block behind it, which has no magic. -/
structure FileSystem (erasesize : ℕ) where
  blocks : List LogBlock
  size : ∀ b ∈ blocks, b.bytes.length = erasesize
  starts : ∀ b ∈ blocks, nodeMagic b.bytes 0
  last : List Byte
  lastSize : last.length = erasesize
  room : magicField + 2 ≤ erasesize
  lastMagic : ¬nodeMagic last 0
  lastEndian : field last (0 + magicField) 2 ≠ ksamtibCigam2sffj

theorem scanBlocks_eq {erasesize : ℕ} (hdir : dir ≠ []) (h0 : 0 ∉ dir) (blocks : List LogBlock)
    (hsize : ∀ b ∈ blocks, b.bytes.length = erasesize)
    (hstarts : ∀ b ∈ blocks, nodeMagic b.bytes 0) (hroom : magicField + 2 ≤ erasesize)
    (rest : List (List Byte)) (mtdofs : ℕ) (s : Scan) :
    scanBlocks dir erasesize (blocks.map LogBlock.bytes ++ rest) mtdofs s =
      scanBlocks dir erasesize rest (mtdofs + erasesize * blocks.length)
        ((direntsOf blocks).foldl (note dir) s) := by
  induction blocks generalizing mtdofs s with
  | nil => rfl
  | cons b blocks ih =>
    rw [List.forall_mem_cons] at hsize hstarts
    have hmagic : field b.bytes (0 + magicField) 2 = jffs2MagicBitmask := hstarts.1
    rw [Nat.zero_add] at hmagic
    rw [List.map_cons, List.cons_append, scanBlocks, if_neg (not_not.mpr hsize.1),
      load_of_le (by rw [hsize.1]; exact hroom), Option.bind_eq_bind, Option.bind_some, hmagic,
      if_neg (by decide), if_neg (by decide), b.parseFrom_eq hdir h0,
      Option.bind_eq_bind, Option.bind_some, ih hsize.2 hstarts.2]
    unfold direntsOf
    rw [List.flatMap_cons, List.foldl_append, List.length_cons, Nat.mul_add, Nat.mul_one,
      Nat.add_comm (erasesize * _), Nat.add_assoc]

/-- The last entry that the test for the directory accepts. -/
def lastMatch (dir : List Byte) (ds : List Dirent) : Option Dirent :=
  ds.reverse.find? fun d => Matches dir d

theorem foldl_note (dir : List Byte) (ds : List Dirent) (s : Scan) :
    ds.foldl (note dir) s =
      { targetIno := ((lastMatch dir ds).map Dirent.ino).getD s.targetIno
        lastIno := (ds.map Dirent.ino).foldl max s.lastIno
        lastVersion := (ds.map Dirent.version).foldl max s.lastVersion } := by
  induction ds using List.reverseRecOn with
  | nil => rfl
  | append_singleton ds d ih =>
    rw [List.foldl_append, ih]
    unfold lastMatch note
    simp only [List.foldl_cons, List.foldl_nil, List.map_append, List.map_cons, List.map_nil,
      List.foldl_append, List.reverse_append, List.reverse_cons, List.reverse_nil, List.nil_append,
      List.cons_append, List.find?_cons]
    by_cases hmatch : Matches dir d
    · simp [hmatch]
    · simp [hmatch]

/-- The scan of a whole file system. -/
theorem scan_eq {erasesize : ℕ} (hdir : dir ≠ []) (h0 : 0 ∉ dir) (fs : FileSystem erasesize)
    (rest : List (List Byte)) :
    scan dir erasesize (fs.blocks.map LogBlock.bytes ++ fs.last :: rest) =
      some (.found, erasesize * (fs.blocks.length + 1),
        (direntsOf fs.blocks).foldl (note dir) ⟨0, 0, 0⟩) := by
  have hmagic : ¬field fs.last magicField 2 = jffs2MagicBitmask := by
    have := fs.lastMagic
    unfold nodeMagic at this
    rwa [Nat.zero_add] at this
  have hendian := fs.lastEndian
  rw [Nat.zero_add] at hendian
  unfold scan
  rw [if_neg hdir, scanBlocks_eq hdir h0 fs.blocks fs.size fs.starts fs.room, scanBlocks,
    if_neg (not_not.mpr fs.lastSize), load_of_le (by rw [fs.lastSize]; exact fs.room),
    Option.bind_eq_bind, Option.bind_some, if_neg hendian, if_pos hmagic, Nat.zero_add]
  rfl

def Exact (dir : List Byte) (d : Dirent) : Prop := d.pino = 1 ∧ d.name = dir

/-- An entry of the root with exactly the name, of the highest version of these. -/
def Latest (dir : List Byte) (ds : List Dirent) (d : Dirent) : Prop :=
  d ∈ ds ∧ Exact dir d ∧ ∀ d' ∈ ds, Exact dir d' → d'.version ≤ d.version

/-- What the directory of a new file has to be. -/
def IsTarget (dir : List Byte) (ds : List Dirent) (ino : ℕ) : Prop :=
  (∃ d, Latest dir ds d ∧ d.ino = ino) ∨ (∀ d ∈ ds, ¬Exact dir d) ∧ ino = 0

/-- The last entry of the root whose name is a prefix of the directory, if there is one, has
exactly its name and the highest version; or it has the inode number of such an entry, or
none when there is no such entry. -/
def LastMatchRight (dir : List Byte) (ds : List Dirent) : Prop :=
  ∀ d, lastMatch dir ds = some d →
    Latest dir ds d ∨ (∃ d', Latest dir ds d' ∧ d'.ino = d.ino) ∨
      (∀ d' ∈ ds, ¬Exact dir d') ∧ d.ino = 0

theorem isTarget_iff (dir : List Byte) (ds : List Dirent) :
    IsTarget dir ds (((lastMatch dir ds).map Dirent.ino).getD 0) ↔ LastMatchRight dir ds := by
  unfold IsTarget LastMatchRight
  cases hmatch : lastMatch dir ds with
  | none =>
    have hnone : ∀ d ∈ ds, ¬Exact dir d := by
      intro d hd hexact
      unfold lastMatch at hmatch
      have hno := List.find?_eq_none.mp hmatch d (List.mem_reverse.mpr hd)
      exact hno (by simpa using ⟨hexact.1, hexact.2 ▸ List.prefix_refl _⟩)
    exact ⟨fun _ d hd => (by cases hd), fun _ => Or.inr ⟨hnone, rfl⟩⟩
  | some d =>
    rw [Option.map_some, Option.getD_some]
    constructor
    · rintro h d' hd'
      obtain rfl := Option.some.inj hd'
      exact Or.inr h
    · intro h
      rcases h d rfl with hlatest | hother
      · exact Or.inl ⟨d, hlatest, rfl⟩
      · exact hother

/-- On every file system the scan ends with the maxima of the inode numbers and the
versions; its target is the entry with exactly the name of the directory if and only if
the last entry with a prefix of that name is the right one. -/
theorem write_jffs2_target {erasesize : ℕ} (hdir : dir ≠ []) (h0 : 0 ∉ dir)
    (fs : FileSystem erasesize) (rest : List (List Byte)) :
    ∃ s, scan dir erasesize (fs.blocks.map LogBlock.bytes ++ fs.last :: rest) =
        some (.found, erasesize * (fs.blocks.length + 1), s) ∧
      s.lastIno = ((direntsOf fs.blocks).map Dirent.ino).foldl max 0 ∧
      s.lastVersion = ((direntsOf fs.blocks).map Dirent.version).foldl max 0 ∧
      (IsTarget dir (direntsOf fs.blocks) s.targetIno ↔
        LastMatchRight dir (direntsOf fs.blocks)) := by
  refine ⟨_, scan_eq hdir h0 fs rest, ?_⟩
  rw [foldl_note]
  exact ⟨rfl, rfl, isTarget_iff dir _⟩

/-- The node of a directory e in the root, with inode number 5 and version 7. -/
def direntNode : List Byte :=
  [0x85, 0x19, 0x01, 0xe0, 0x29, 0x00, 0x00, 0x00, 0x6d, 0xa6, 0x2f, 0xd7, 0x01, 0x00, 0x00, 0x00,
    0x07, 0x00, 0x00, 0x00, 0x05, 0x00, 0x00, 0x00, 0x00, 0x00, 0x00, 0x00, 0x01, 0x04, 0x00, 0x00,
    0x9a, 0x7b, 0x88, 0xbf, 0xd7, 0x95, 0xd8, 0x3d, 0x65, 0xff, 0xff, 0xff]

/-- A block with that node, erased behind it. -/
def direntBytes (rest : ℕ) : List Byte := direntNode ++ List.replicate rest 0xff

theorem direntBytes_length (rest : ℕ) : (direntBytes rest).length = 44 + rest := by
  simp [direntBytes, direntNode]
  omega

theorem direntBytes_field (rest : ℕ) {off n : ℕ} (h : off + n ≤ 44) :
    field (direntBytes rest) off n = field direntNode off n := field_append_left h _

theorem erased_magic {rest : ℕ} (h : 2 ≤ rest) : field (List.replicate rest 0xff) 0 2 = 0xffff := by
  have hmin : min 2 rest = 2 := by omega
  have hword : segment (List.replicate rest (0xff : Byte)) 0 2 = [0xff, 0xff] := by
    simp [Lib.segment, hmin, List.replicate_succ]
  unfold field
  rw [hword]
  decide

theorem direntBytes_erased {rest : ℕ} (h : 2 ≤ rest) : ¬nodeMagic (direntBytes rest) 44 := by
  have hmagic : field (direntBytes rest) (44 + magicField) 2 = 0xffff :=
    (field_append_right direntNode _ 0 2).trans (erased_magic h)
  unfold nodeMagic
  rw [hmagic]
  decide

theorem direntBytes_node (rest : ℕ) :
    nodeMagic (direntBytes rest) 0 ∧ isDirent (direntBytes rest) 0 ∧
      direntAt (direntBytes rest) 0 = ⟨1, 7, 5, [0x65]⟩ := by
  have hname : segment (direntBytes rest) (0 + nameField) 1 = [0x65] := rfl
  refine ⟨?_, ?_, ?_⟩
  · exact (direntBytes_field rest (by decide)).trans (by decide)
  · exact (direntBytes_field rest (by decide)).trans (by decide)
  · unfold direntAt
    rw [direntBytes_field rest (by decide), direntBytes_field rest (by decide),
      direntBytes_field rest (by decide), direntBytes_field rest (by decide)]
    rw [show field direntNode (0 + nsizeField) 1 = 1 by decide, hname]
    rfl

def direntBlock (rest : ℕ) (h : 2 ≤ rest) : LogBlock where
  bytes := direntBytes rest
  nodes := [0, 44]
  walk := by
    have hlen := direntBytes_length rest
    have hfirst : nextNode (direntBytes rest) 0 = some 44 := by
      rw [nextNode_of_node (by omega) (direntBytes_node rest).1, direntBytes_field rest (by decide)]
      rfl
    exact Walk.next hfirst (Walk.next (nextNode_of_break (by omega) (direntBytes_erased h))
      (Walk.stop (nextNode_past (le_refl _))))
  inside o ho := by
    rw [direntBytes_length]
    rcases List.mem_cons.mp ho with rfl | ho
    · unfold magicField
      omega
    · obtain rfl := List.mem_singleton.mp ho
      unfold magicField
      omega
  head o ho hmagic := by
    rw [direntBytes_length]
    rcases List.mem_cons.mp ho with rfl | ho
    · unfold totlenField
      omega
    · obtain rfl := List.mem_singleton.mp ho
      exact absurd hmagic (direntBytes_erased h)
  whole o ho hmagic _ := by
    rw [direntBytes_length]
    rcases List.mem_cons.mp ho with rfl | ho
    · rw [direntBytes_field rest (by decide), show field direntNode (0 + nsizeField) 1 = 1 by decide]
      unfold nameField
      omega
    · obtain rfl := List.mem_singleton.mp ho
      exact absurd hmagic (direntBytes_erased h)
  noNul o ho hmagic _ := by
    rcases List.mem_cons.mp ho with rfl | ho
    · rw [(direntBytes_node rest).2.2]
      decide
    · obtain rfl := List.mem_singleton.mp ho
      exact absurd hmagic (direntBytes_erased h)

/-- One block with the node and an erased block. -/
def direntFileSystem : FileSystem 65536 where
  blocks := [direntBlock 65492 (by omega)]
  size b hb := by
    obtain rfl := List.mem_singleton.mp hb
    exact direntBytes_length 65492
  starts b hb := by
    obtain rfl := List.mem_singleton.mp hb
    exact (direntBytes_node 65492).1
  last := List.replicate 65536 0xff
  lastSize := List.length_replicate
  room := by decide
  lastMagic := by
    unfold nodeMagic
    rw [show 0 + magicField = 0 from rfl, erased_magic (by omega)]
    decide
  lastEndian := by
    rw [show 0 + magicField = 0 from rfl, erased_magic (by omega)]
    decide

theorem direntFileSystem_dirents :
    direntsOf direntFileSystem.blocks = [⟨1, 7, 5, [0x65]⟩] := by
  obtain ⟨hmagic, hdirent, hat⟩ := direntBytes_node 65492
  have herased := direntBytes_erased (show 2 ≤ 65492 by omega)
  change (([0, 44].filter fun o => decide (nodeMagic (direntBytes 65492) o ∧
    isDirent (direntBytes 65492) o)).map (direntAt (direntBytes 65492))) ++ [] = _
  rw [List.filter_cons_of_pos (by simp [hmagic, hdirent]),
    List.filter_cons_of_neg (by simp [herased]), List.filter_nil, List.map_cons, hat]
  rfl

/-- The directory e is found. -/
theorem write_jffs2_target_found : ∃ s,
    scan [0x65] 65536 (direntFileSystem.blocks.map LogBlock.bytes ++
      direntFileSystem.last :: []) = some (.found, 131072, s) ∧
    IsTarget [0x65] (direntsOf direntFileSystem.blocks) s.targetIno := by
  obtain ⟨s, hscan, _, _, hiff⟩ :=
    @write_jffs2_target [0x65] 65536 (by decide) (by decide) direntFileSystem []
  refine ⟨s, hscan, hiff.mpr ?_⟩
  rw [direntFileSystem_dirents]
  intro d hd
  obtain rfl : (⟨1, 7, 5, [0x65]⟩ : Dirent) = d := by simpa [lastMatch, Matches] using hd
  refine Or.inl ⟨List.mem_singleton_self _, ⟨rfl, rfl⟩, fun d' hd' _ => ?_⟩
  obtain rfl := List.mem_singleton.mp hd'
  exact le_refl _

/-- The directory etc is taken for e. -/
theorem prefix_taken_for_directory : ∃ s,
    scan [0x65, 0x74, 0x63] 65536 (direntFileSystem.blocks.map LogBlock.bytes ++
      direntFileSystem.last :: []) = some (.found, 131072, s) ∧ s.targetIno = 5 ∧
    ¬IsTarget [0x65, 0x74, 0x63] (direntsOf direntFileSystem.blocks) s.targetIno := by
  refine ⟨_, scan_eq (by decide) (by decide) direntFileSystem [], ?_⟩
  rw [foldl_note, direntFileSystem_dirents]
  have htarget : ((lastMatch [0x65, 0x74, 0x63] [⟨1, 7, 5, [0x65]⟩]).map Dirent.ino).getD 0 = 5 := by
    decide
  refine ⟨htarget, ?_⟩
  dsimp only
  rw [htarget]
  rintro (⟨d, ⟨hd, ⟨_, hname⟩, _⟩, _⟩ | ⟨_, hzero⟩)
  · obtain rfl := List.mem_singleton.mp hd
    exact absurd hname (by decide)
  · exact absurd hzero (by decide)

end Iot7688.Jffs2
