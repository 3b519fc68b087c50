import Iot7688.ApClient

/-!
The survey stores what the driver printed exactly when every column has a text without NUL
that is shorter than the column and not empty: next_field leaves one space of an empty
column. It stays in the result buffer exactly when each line that is stored starts 80 bytes
or more in front of the end of the buffer.
-/
namespace Iot7688.ApClient

open Lib

variable {k : Link} {limit n o i j line : ℕ} {s st st' : Mem} {c : Column} {t : Str} {x : Network}
  {w w' : Survey}

/-- What is left of a text: an empty one leaves a space. -/
def keptText (t : Str) : Str := if t = [] then [blank] else t

def Network.kept (x : Network) : Network :=
  ⟨keptText x.channel, keptText x.ssid, keptText x.bssid, keptText x.security⟩

theorem Network.text_kept (x : Network) (c : Column) : x.kept.text c = keptText (x.text c) := by
  cases c <;> rfl

theorem keptText_eq (ht : t ≠ []) : keptText t = t := if_neg ht

theorem keptText_ne_nil (t : Str) : keptText t ≠ [] := by
  unfold keptText
  split
  · exact List.cons_ne_nil _ _
  · assumption

/-- A text in a field that is filled up with NULs. -/
structure Filled (st : Mem) (o n : ℕ) (t : Str) : Prop where
  text : Text st o t
  nuls : ∀ j, t.length ≤ j → j < n → st (o + j) = 0

theorem filled_congr (h : Filled st o n t) (ht : t.length ≤ n)
    (hsame : ∀ i, o ≤ i → i < o + n → st' i = st i) : Filled st' o n t where
  text := text_congr (fun i hi hlt => hsame i hi (by omega)) h.text
  nuls j hj hlt := (hsame _ (by omega) (by omega)).trans (h.nuls j hj hlt)

theorem filled_cstr (h : Filled st o n t) (hnul : 0 ∉ t) (ht : t.length < n) :
    cstr st (o + n) o = some t :=
  cstr_text h.text hnul (h.nuls _ le_rfl ht) (by omega)

theorem trim_outside (st : Mem) (o : ℕ) (hi : i ≤ o ∨ o + j < i) : trim st o j i = st i := by
  induction j generalizing st with
  | zero => rfl
  | succ j ih =>
    rw [trim]
    split
    · rfl
    · rw [ih _ (by omega), Function.update_of_ne (by omega)]

/-- Trimming stops behind the text, or at its first byte. -/
theorem trim_inside {len : ℕ} (hlen : 1 ≤ len) (hj : len ≤ j + 1)
    (hblank : ∀ i, len ≤ i → i ≤ j → st (o + i) = blank)
    (hstop : len = 1 ∨ st (o + (len - 1)) ≠ blank) :
    (∀ i, i < len → trim st o j (o + i) = st (o + i)) ∧
      ∀ i, len ≤ i → i ≤ j → trim st o j (o + i) = 0 := by
  induction j generalizing st with
  | zero =>
    refine ⟨fun i _ => rfl, fun i hi hij => ?_⟩
    omega
  | succ j ih =>
    rw [trim]
    rcases Nat.lt_or_eq_of_le hj with hlt | heq
    · rw [if_neg (not_not.mpr (hblank (j + 1) (by omega) le_rfl))]
      have hcut : ∀ i, i ≤ j →
          Function.update st (o + (j + 1)) 0 (o + i) = st (o + i) := fun i hi =>
        Function.update_of_ne (by omega) _ _
      have hspaces : ∀ i, len ≤ i → i ≤ j →
          Function.update st (o + (j + 1)) 0 (o + i) = blank := fun i hi hij =>
        (hcut i hij).trans (hblank i hi (by omega))
      obtain ⟨hfront, hback⟩ := ih (by omega) hspaces
        (hstop.imp_right fun h => by rwa [hcut _ (by omega)])
      refine ⟨fun i hi => (hfront i hi).trans (hcut i (by omega)), fun i hi hij => ?_⟩
      rcases Nat.lt_or_eq_of_le hij with hlt | rfl
      · exact hback i hi (by omega)
      · rw [trim_outside _ _ (Or.inr (by omega)), Function.update_self]
    · have hlast : st (o + (j + 1)) ≠ blank := by
        rcases hstop with h1 | h1
        · omega
        · rwa [heq, Nat.add_sub_cancel] at h1
      rw [if_pos hlast]
      refine ⟨fun i _ => rfl, fun i hi hij => ?_⟩
      omega

theorem nextField_frame (s st : Mem) (line o : ℕ) (hn : 1 ≤ n) (hi : i < o ∨ o + n ≤ i) :
    trim (st.copy o n (s.shift line)) o (n - 1) i = st i := by
  rw [trim_outside _ _ (by omega), Mem.copy_outside _ _ hi]

theorem width_pos (c : Column) : 2 ≤ c.width := by
  cases c <;> decide

theorem padded_length (hfit : t.length ≤ c.width) : (padded c t).length = c.width := by
  rw [padded, List.length_append, List.length_replicate]
  omega

theorem nextField_filled (st : Mem) (o : ℕ) (hprints : Prints c t) (htext : Text s line (padded c t))
    (hline : line + c.width ≤ limit) :
    ∃ st', nextField limit s line st o c.width = some (line + c.width, st') ∧
      Filled st' o c.width (keptText t) ∧ ∀ i, i < o ∨ o + c.width ≤ i → st' i = st i := by
  have hwidth := width_pos c
  have hfit := hprints.fits
  have hcopied : Text (st.copy o c.width (s.shift line)) o (padded c t) :=
    text_copy htext (by rw [padded_length hfit])
  obtain ⟨hfrom, hspaces⟩ := text_append.mp hcopied
  have hblank : ∀ i, t.length ≤ i → i < c.width →
      st.copy o c.width (s.shift line) (o + i) = blank := by
    intro i hi hlt
    have hget := text_get hspaces (i := i - t.length) (by rw [List.length_replicate]; omega)
    rwa [List.getElem_replicate, Nat.add_assoc, Nat.add_sub_cancel' hi] at hget
  refine ⟨_, if_pos hline, ?_, fun i hi => nextField_frame s st line o (by omega) hi⟩
  by_cases ht : t = []
  · subst ht
    have hspaces : ∀ i, 1 ≤ i → i ≤ c.width - 1 →
        st.copy o c.width (s.shift line) (o + i) = blank := fun i _ hij =>
      hblank i (Nat.zero_le _) (by omega)
    obtain ⟨hfront, hback⟩ := trim_inside le_rfl (by omega) hspaces (Or.inl rfl)
    refine ⟨⟨?_, trivial⟩, fun j hj hlt => hback j hj (by omega)⟩
    exact (hfront 0 Nat.one_pos).trans (hblank 0 le_rfl (by omega))
  · have hpos := List.length_pos_of_ne_nil ht
    have hlast : st.copy o c.width (s.shift line) (o + (t.length - 1)) ≠ blank := by
      rw [text_get hfrom (by omega)]
      intro heq
      apply hprints.trimmed
      rw [List.getLast?_eq_getElem?, List.getElem?_eq_getElem (by omega), heq]
    obtain ⟨hfront, hback⟩ := trim_inside (j := c.width - 1) hpos (by omega)
      (fun i hi hij => hblank i hi (by omega)) (Or.inr hlast)
    rw [keptText_eq ht]
    refine ⟨text_congr (fun i hi hlt => ?_) hfrom, fun j hj hlt => hback j hj (by omega)⟩
    have hsame := hfront (i - o) (by omega)
    rwa [Nat.add_sub_cancel' hi] at hsame

section Split

variable {a : ℕ}

theorem setCrypto_outside (st : Mem) (a : ℕ) (hj : j < cryptoPlace i ∨ cryptoPlace i + 4 ≤ j) :
    setCrypto st i a j = st j := Mem.copy_outside _ _ hj

theorem crypto_congr (h : ∀ j, cryptoPlace i ≤ j → j < cryptoPlace i + 4 → st' j = st j) :
    crypto st' i = crypto st i := by
  unfold crypto
  congr 1
  refine List.map_congr_left fun j hj => ?_
  have hlt := List.mem_range.mp hj
  exact h _ (by omega) (by omega)

theorem crypto_setCrypto (st : Mem) (i : ℕ) (ha : a < 2 ^ 32) : crypto (setCrypto st i a) i = a := by
  have hbytes : ((List.range 4).map fun j => setCrypto st i a (cryptoPlace i + j)) = leBytes 4 a := by
    refine List.ext_getElem (by simp) fun j hj _ => ?_
    have hlt : j < 4 := by simpa using hj
    rw [List.getElem_map, List.getElem_range, setCrypto, Mem.copy_inside _ _ hlt,
      List.getD_eq_getElem?_getD, List.getElem?_eq_getElem (by rw [leBytes_length]; exact hlt),
      Option.getD_some]
  rw [crypto, hbytes, leValue_leBytes, Nat.mod_eq_of_lt ha]

theorem stop_security (i : ℕ) : Column.security.stop i = cryptoPlace i := by
  simp only [Column.stop, Column.place, Column.offset, Column.width, cryptoPlace]

theorem encryption_cipher {front back : Str} (hx : x.security = front ++ slash :: back)
    (hfront : slash ∉ front) : x.encryption = front ∧ x.cipher = back := by
  have hall : ∀ b ∈ front, decide (b ≠ slash) = true := fun b hb =>
    decide_eq_true fun heq : b = slash => hfront (heq ▸ hb)
  unfold Network.encryption Network.cipher
  rw [hx, List.takeWhile_append_of_pos hall, List.dropWhile_append_of_pos hall]
  simp

theorem encryption_whole (hx : slash ∉ x.security) : x.encryption = x.security := by
  refine List.takeWhile_eq_self_iff.mpr fun b hb => ?_
  exact decide_eq_true fun heq : b = slash => hx (heq ▸ hb)

/-- The texts of an entry before the split. -/
def Row (st : Mem) (i : ℕ) (x : Network) : Prop :=
  ∀ c, Filled st (c.place i) c.width (x.text c)

theorem stored_of_split (hrow : Row st i x) (hnul : ∀ c, 0 ∉ x.text c)
    (hfit : ∀ c, (x.text c).length < c.width)
    (hframe : ∀ j, j < Column.security.place i → st' j = st j)
    (hsecurity : cstr st' (Column.security.stop i) (Column.security.place i) = some x.encryption)
    (hsplit : slash ∈ x.security → ∃ q, q = Column.security.place i + x.encryption.length + 1 ∧
      crypto st' i = k.base + q ∧ cstr st' (Column.security.stop i) q = some x.cipher)
    (hwhole : slash ∉ x.security → crypto st' i = k.literal) : Stored k st' i x := by
  have hcolumn : ∀ c : Column, c.stop i ≤ Column.security.place i →
      cstr st' (c.stop i) (c.place i) = some (x.text c) := by
    intro c hc
    rw [cstr_congr fun j _ hj => hframe j (by omega)]
    exact filled_cstr (hrow c) (hnul c) (hfit c)
  have hle : ∀ c : Column, c ≠ .security → c.stop i ≤ Column.security.place i := by
    intro c hc
    cases c <;> simp [Column.stop, Column.place, Column.offset, Column.width] at hc ⊢
  exact ⟨hcolumn .channel (hle _ (by decide)), hcolumn .ssid (hle _ (by decide)),
    hcolumn .bssid (hle _ (by decide)), hsecurity, hsplit, hwhole⟩

theorem splitSecurity_stored (hi : i < 64) (hrow : Row st i x) (hnul : ∀ c, 0 ∉ x.text c)
    (hfit : ∀ c, (x.text c).length < c.width) :
    ∃ st', splitSecurity k st i = some st' ∧ Stored k st' i x ∧
      ∀ j, j < entrySize * i → st' j = st j := by
  have hsec : Filled st (Column.security.place i) Column.security.width x.security := hrow .security
  have hlen : x.security.length < 23 := hfit .security
  have hzero : 0 ∉ x.security := hnul .security
  have htable := k.table
  have hbase := k.fits
  have hplace : Column.security.place i = entrySize * i + 57 := rfl
  have hcrypto : cryptoPlace i = entrySize * i + 80 := rfl
  have hstop := stop_security i
  have hsize : entrySize * i + 84 ≤ tableSize := by
    unfold tableSize entrySize
    omega
  by_cases hslash : slash ∈ x.security
  · obtain ⟨front, back, hx, hfront⟩ := List.eq_append_cons_of_mem hslash
    obtain ⟨henc, hcipher⟩ := encryption_cipher hx hfront
    have htext := hsec.text
    have hend := hsec.nuls _ le_rfl hlen
    rw [hx] at htext hzero hlen hend
    rw [text_append] at htext
    rw [List.mem_append, List.mem_cons, not_or, not_or] at hzero
    rw [List.length_append, List.length_cons] at hlen hend
    obtain ⟨q, hq⟩ : ∃ q, q = Column.security.place i + front.length := ⟨_, rfl⟩
    rw [← hq] at htext
    have hsearch : strchr st k.limit slash (Column.security.place i) = some (some q) := by
      rw [hq]
      refine strchr_found htext.1 hfront hzero.1 ?_ (by omega)
      rw [← hq]
      exact htext.2.1
    -- the pointer is stored at the '/', and moved behind it once that is a NUL
    have hpointer : crypto (Function.update (setCrypto st i (k.base + q)) q 0) i = k.base + q := by
      rw [crypto_congr fun j hj _ => Function.update_of_ne (by omega) _ _]
      exact crypto_setCrypto st i (by omega)
    obtain ⟨st', hst'⟩ : ∃ st', st' = setCrypto
        (Function.update (setCrypto st i (k.base + q)) q 0) i (k.base + q + 1) := ⟨_, rfl⟩
    have hframe : ∀ j, j < cryptoPlace i → j ≠ q → st' j = st j := by
      intro j hj hne
      rw [hst', setCrypto_outside _ _ (Or.inl hj), Function.update_of_ne hne,
        setCrypto_outside _ _ (Or.inl hj)]
    have hcut : st' q = 0 := by
      rw [hst', setCrypto_outside _ _ (Or.inl (by omega)), Function.update_self]
    refine ⟨st', ?_, ?_, fun j hj => hframe j (by omega) (by omega)⟩
    · rw [splitSecurity, hsearch]
      dsimp only
      rw [hpointer, ← hst']
    · refine stored_of_split hrow hnul hfit (fun j hj => hframe j (by omega) (by omega)) ?_
        (fun _ => ⟨q + 1, by rw [henc, hq], ?_, ?_⟩) fun h => absurd hslash h
      · rw [henc]
        refine cstr_text (text_congr (fun j hj hlt => ?_) htext.1) hzero.1 ?_ (by omega)
        · exact hframe j (by omega) (by omega)
        · rw [← hq]
          exact hcut
      · rw [hst', crypto_setCrypto _ _ (by omega), Nat.add_assoc]
      · rw [hcipher]
        refine cstr_text (text_congr (fun j hj hlt => ?_) htext.2.2) hzero.2.2 ?_ (by omega)
        · exact hframe j (by omega) (by omega)
        · rw [hframe _ (by omega) (by omega), ← hend]
          congr 1
          omega
  · have hsearch : strchr st k.limit slash (Column.security.place i) = some none := by
      refine strchr_absent hsec.text hslash hzero (by decide) ?_ (by omega)
      exact hsec.nuls _ le_rfl hlen
    have hframe : ∀ j, j < cryptoPlace i → setCrypto st i k.literal j = st j := fun j hj =>
      setCrypto_outside _ _ (Or.inl hj)
    refine ⟨setCrypto st i k.literal, by rw [splitSecurity, hsearch], ?_, fun j hj => ?_⟩
    · refine stored_of_split hrow hnul hfit (fun j hj => hframe j (by omega)) ?_
        (fun h => absurd h hslash) fun _ => crypto_setCrypto st i k.word
      rw [encryption_whole hslash, cstr_congr fun j _ hj => hframe j (by omega)]
      exact filled_cstr hsec hzero hlen
    · exact hframe j (by omega)

end Split

/-- Every text of the network ends in its column. -/
def Terminated (x : Network) : Prop := ∀ c, 0 ∉ x.text c ∧ (x.text c).length < c.width

theorem terminated_kept (h : Terminated x) : Terminated x.kept := by
  intro c
  have hwidth := width_pos c
  rw [x.text_kept, keptText]
  split
  · exact ⟨by decide, hwidth⟩
  · exact h c

section Run

variable {p save' : ℕ} {s' : Mem} {found : Option ℕ} {ls : List Line} {l : Line}

theorem columns_length (l : Line) : (columns l.network).length = 80 := by
  have hchannel : Prints .channel l.network.channel := l.prints .channel
  have hssid : Prints .ssid l.network.ssid := l.prints .ssid
  have hbssid : Prints .bssid l.network.bssid := l.prints .bssid
  have hsecurity : Prints .security l.network.security := l.prints .security
  simp only [columns, List.length_append, padded_length hchannel.fits, padded_length hssid.fits,
    padded_length hbssid.fits, padded_length hsecurity.fits, Column.width]

/-- The four columns of a line go into the entry, and the next line is looked for. -/
theorem surveyLine_stored (hcount : w.count < 64) (hterm : Terminated l.network)
    (htext : Text w.s p (columns l.network)) (hin : p + 80 ≤ limit)
    (hnext : strtok w.s limit newline w.save = some (found, s', save')) :
    ∃ st', surveyLine k limit w p = some (found, ⟨⟨st', w.count + 1⟩, s', save'⟩) ∧
      Stored k st' w.count l.network.kept ∧ ∀ j, j < entrySize * w.count → st' j = w.st j := by
  have hchannel : Prints .channel l.network.channel := l.prints .channel
  have hssid : Prints .ssid l.network.ssid := l.prints .ssid
  have hbssid : Prints .bssid l.network.bssid := l.prints .bssid
  have hsecurity : Prints .security l.network.security := l.prints .security
  rw [columns, text_append, text_append, text_append, List.length_append, List.length_append,
    List.length_append, padded_length hchannel.fits, padded_length hssid.fits,
    padded_length hbssid.fits] at htext
  obtain ⟨⟨⟨htext1, htext2⟩, htext3⟩, htext4⟩ := htext
  rw [← Nat.add_assoc] at htext3
  rw [← Nat.add_assoc, ← Nat.add_assoc] at htext4
  obtain ⟨st1, hfield1, hfilled1, hframe1⟩ := nextField_filled w.st (Column.channel.place w.count)
    hchannel htext1 (show p + 4 ≤ limit by omega)
  obtain ⟨st2, hfield2, hfilled2, hframe2⟩ := nextField_filled st1 (Column.ssid.place w.count)
    hssid htext2 (show p + 4 + 33 ≤ limit by omega)
  obtain ⟨st3, hfield3, hfilled3, hframe3⟩ := nextField_filled st2 (Column.bssid.place w.count)
    hbssid htext3 (show p + 4 + 33 + 20 ≤ limit by omega)
  obtain ⟨st4, hfield4, hfilled4, hframe4⟩ := nextField_filled st3 (Column.security.place w.count)
    hsecurity htext4 (show p + 4 + 33 + 20 + 23 ≤ limit by omega)
  simp only [Column.place, Column.offset, Column.width] at hframe1 hframe2 hframe3 hframe4
  have hkept := terminated_kept hterm
  have hrow : Row st4 w.count l.network.kept := by
    intro c
    have hfit := (hkept c).2.le
    cases c with
    | channel =>
      refine filled_congr hfilled1 hfit fun i hi hlt => ?_
      simp only [Column.place, Column.offset, Column.width] at hi hlt
      rw [hframe4 i (by omega), hframe3 i (by omega), hframe2 i (by omega)]
    | ssid =>
      refine filled_congr hfilled2 hfit fun i hi hlt => ?_
      simp only [Column.place, Column.offset, Column.width] at hi hlt
      rw [hframe4 i (by omega), hframe3 i (by omega)]
    | bssid =>
      refine filled_congr hfilled3 hfit fun i hi hlt => ?_
      simp only [Column.place, Column.offset, Column.width] at hi hlt
      rw [hframe4 i (by omega)]
    | security => exact hfilled4
  obtain ⟨st', hsplit, hstored, hframe⟩ := splitSecurity_stored (k := k) hcount hrow
    (fun c => (hkept c).1) fun c => (hkept c).2
  refine ⟨st', ?_, hstored, fun j hj => ?_⟩
  · simp only [surveyLine, hfield1, hfield2, hfield3, hfield4, hnext, hsplit, Option.bind_eq_bind,
      Option.bind_some]
  · rw [hframe j hj, hframe4 j (by omega), hframe3 j (by omega), hframe2 j (by omega),
      hframe1 j (by omega)]

/-- The current line and those that strtok has left. -/
def Cursor (limit : ℕ) (s : Mem) (save : ℕ) (found : Option ℕ) : List Line → Prop
  | [] => found = none
  | l :: ls => ∃ p, found = some p ∧ Text s p (columns l.network) ∧ p + 80 ≤ limit ∧
      Text s save (ls.flatMap Line.text ++ [0]) ∧ save + (ls.flatMap Line.text).length < limit

theorem not_mem_columns {b : Byte} (hb : b ≠ blank) (hx : ∀ c, b ∉ x.text c) : b ∉ columns x := by
  have hchannel : b ∉ x.channel := hx .channel
  have hssid : b ∉ x.ssid := hx .ssid
  have hbssid : b ∉ x.bssid := hx .bssid
  have hsecurity : b ∉ x.security := hx .security
  simp [columns, padded, hchannel, hssid, hbssid, hsecurity, hb]

/-- The next call gives the first of the lines. -/
theorem strtok_cursor {save : ℕ} (hterm : ∀ l ∈ ls, Terminated l.network)
    (htext : Text s save (ls.flatMap Line.text ++ [0]))
    (hin : save + (ls.flatMap Line.text).length < limit) :
    ∃ found s' save', strtok s limit newline save = some (found, s', save') ∧
      Cursor limit s' save' found ls := by
  cases ls with
  | nil => exact ⟨none, s, save, strtok_end htext.1 (by decide) hin, rfl⟩
  | cons l ls =>
    have hcolumns := columns_length l
    have hnul : 0 ∉ columns l.network :=
      not_mem_columns (by decide) fun c => (hterm l List.mem_cons_self c).1
    have hline : newline ∉ columns l.network :=
      not_mem_columns (by decide) fun c => (l.prints c).line
    rw [List.flatMap_cons, List.append_assoc, text_append] at htext
    rw [List.flatMap_cons, List.length_append, Line.text, List.length_append, List.length_singleton]
      at hin
    obtain ⟨hfirst, hrest⟩ := htext
    have hlen : l.text.length = (columns l.network ++ l.more).length + 1 := by
      rw [Line.text, List.length_append, List.length_singleton]
    rw [hlen] at hrest
    have hbody : (columns l.network ++ l.more).length = 80 + l.more.length := by
      rw [List.length_append, hcolumns]
    have hne : columns l.network ++ l.more ≠ [] := by
      intro h
      rw [h, List.length_nil] at hbody
      omega
    have hcall := strtok_text hfirst hne (List.not_mem_append hline l.line)
      (List.not_mem_append hnul l.nul)
      (show save + (columns l.network ++ l.more).length < limit by omega)
    refine ⟨_, _, _, hcall, save, rfl, ?_, by omega, ?_, by omega⟩
    · refine text_update (Or.inr (by omega)) ?_
      exact (text_append.mp (text_append.mp hfirst).1).1
    · exact text_update (Or.inl (by omega)) hrest

theorem stored_congr (h : Stored k st i x) (hsame : ∀ j, j < entrySize * (i + 1) → st' j = st j) :
    Stored k st' i x := by
  have hin : ∀ c : Column, c.stop i ≤ entrySize * (i + 1) := by
    intro c
    cases c <;> simp only [Column.stop, Column.place, Column.offset, Column.width, entrySize] <;> omega
  have hfield : ∀ (c : Column) (q : ℕ), cstr st' (c.stop i) q = cstr st (c.stop i) q := fun c q =>
    cstr_congr fun j _ hj => hsame j (hj.trans_le (hin c))
  have hcrypto : crypto st' i = crypto st i := by
    refine crypto_congr fun j _ hj => hsame j ?_
    unfold cryptoPlace entrySize at hj
    unfold entrySize
    omega
  refine ⟨(hfield _ _).trans h.channel, (hfield _ _).trans h.ssid, (hfield _ _).trans h.bssid,
    (hfield _ _).trans h.security, fun hx => ?_, fun hx => hcrypto.trans (h.whole hx)⟩
  obtain ⟨q, hq, hpointer, hcipher⟩ := h.split hx
  exact ⟨q, hq, hcrypto.trans hpointer, (hfield _ _).trans hcipher⟩

theorem surveyLoop_stored (hterm : ∀ l ∈ ls, Terminated l.network)
    (hcursor : Cursor limit w.s w.save found ls) (hroom : ls.length ≤ n) (hcount : w.count + n = 64) :
    ∃ w', surveyLoop k limit n found w = some w' ∧ w'.count = w.count + ls.length ∧
      (∀ j, j < entrySize * w.count → w'.st j = w.st j) ∧
      ∀ i l, ls[i]? = some l → Stored k w'.st (w.count + i) l.network.kept := by
  induction ls generalizing n found w with
  | nil =>
    rw [Cursor] at hcursor
    refine ⟨w, ?_, rfl, fun _ _ => rfl, fun i l hl => by simp at hl⟩
    rw [hcursor]
    cases n <;> rfl
  | cons l ls ih =>
    obtain ⟨p, rfl, htext, hin, hrest, hlimit⟩ := hcursor
    rw [List.length_cons] at hroom
    obtain ⟨n, rfl⟩ : ∃ m, n = m + 1 := ⟨n - 1, by omega⟩
    have hterm' : ∀ l ∈ ls, Terminated l.network := fun l hl => hterm l (List.mem_cons_of_mem _ hl)
    obtain ⟨found, s', save', hnext, hcursor⟩ := strtok_cursor hterm' hrest hlimit
    obtain ⟨st', hturn, hstored, hframe⟩ := surveyLine_stored (k := k) (by omega)
      (hterm l List.mem_cons_self) htext hin hnext
    obtain ⟨w', hrun, hw', hkeep, hall⟩ :=
      ih hterm' (w := ⟨⟨st', w.count + 1⟩, s', save'⟩) hcursor (n := n) (by omega) (by
        dsimp only
        omega)
    refine ⟨w', ?_, ?_, fun j hj => ?_, fun i l' hl' => ?_⟩
    · rw [surveyLoop, hturn]
      exact hrun
    · rw [hw', List.length_cons]
      dsimp only
      omega
    · refine (hkeep j ?_).trans (hframe j hj)
      unfold entrySize at hj ⊢
      dsimp only
      omega
    · cases i with
      | zero =>
        rw [List.getElem?_cons_zero] at hl'
        obtain rfl := Option.some.inj hl'
        exact stored_congr hstored hkeep
      | succ i =>
        rw [List.getElem?_cons_succ] at hl'
        have hplace : w.count + (i + 1) = w.count + 1 + i := by omega
        rw [hplace]
        exact hall i l' hl'

/-- The survey of a printout whose texts all end in their columns. -/
theorem wifiSiteSurvey_stored {pr : Printout} {a : Answer} (t : Table) (hholds : Holds limit pr a)
    (hterm : ∀ l ∈ pr.lines, Terminated l.network) :
    ∃ t', wifiSiteSurvey k limit a t = some t' ∧ t'.count = pr.lines.length ∧
      ∀ i l, pr.lines[i]? = some l → Stored k t'.st i l.network.kept := by
  have htext := hholds.text
  have hfits := hholds.fits
  have hnamed := List.length_pos_of_ne_nil pr.named
  unfold Printout.text at htext hfits
  rw [List.append_assoc, List.append_assoc, List.append_assoc, text_append, List.length_replicate,
    Nat.zero_add, ← List.append_assoc, text_append] at htext
  simp only [List.length_append, List.length_replicate, List.length_singleton] at hfits htext
  obtain ⟨hnewlines, hheader, hlines⟩ := htext
  have hfirst : a.data (0 + pr.newlines) ≠ newline := by
    have hget := text_get (text_append.mp hheader).1 hnamed
    rw [Nat.add_zero] at hget
    rw [Nat.zero_add, hget]
    exact fun h => pr.line (h ▸ List.getElem_mem _)
  have hskip := skipByte_text hnewlines hfirst (show 0 + pr.newlines < limit by omega)
  rw [Nat.zero_add] at hskip
  have hhead := strtok_text hheader pr.named pr.line pr.nul
    (show pr.newlines + pr.header.length < limit by omega)
  have hleft : Text (Function.update a.data (pr.newlines + pr.header.length) 0)
      (pr.newlines + pr.header.length + 1) (pr.lines.flatMap Line.text ++ [0]) :=
    text_update (Or.inl (Nat.lt_succ_self _)) hlines
  obtain ⟨found, s', save', hnext, hcursor⟩ := strtok_cursor hterm hleft
    (show pr.newlines + pr.header.length + 1 + (pr.lines.flatMap Line.text).length < limit by omega)
  obtain ⟨w', hrun, hcount, -, hall⟩ := surveyLoop_stored (k := k) (n := 64)
    (w := ⟨⟨t.st, 0⟩, s', save'⟩) hterm hcursor pr.count rfl
  refine ⟨w'.toTable, ?_, ?_, fun i l hl => ?_⟩
  · have hanswer : ¬(a.ret ≠ 0 ∨ a.length < 1) := by
      rw [not_or, not_not]
      exact ⟨hholds.ret, Nat.not_lt.mpr hholds.length⟩
    rw [wifiSiteSurvey, if_neg hanswer, hskip]
    dsimp only
    rw [hhead]
    dsimp only
    rw [hnext]
    dsimp only
    rw [hrun]
    rfl
  · rw [hcount]
    exact Nat.zero_add _
  · have hstored := hall i l hl
    rwa [Nat.zero_add] at hstored

end Run

section Found

variable {xs : List Network} {t : Table}

theorem stored_terminated (h : Stored k st i x) : Terminated x := by
  have hfield : ∀ (c : Column) (t : Str), cstr st (c.stop i) (c.place i) = some t →
      0 ∉ t ∧ t.length < c.width := by
    intro c t ht
    obtain ⟨-, hnul, -, hin⟩ := cstr_eq_some ht
    unfold Column.stop at hin
    exact ⟨hnul, by omega⟩
  intro c
  cases c with
  | channel => exact hfield _ _ h.channel
  | ssid => exact hfield _ _ h.ssid
  | bssid => exact hfield _ _ h.bssid
  | security =>
    obtain ⟨hnul, hlen⟩ := hfield _ _ h.security
    change 0 ∉ x.security ∧ x.security.length < 23
    by_cases hslash : slash ∈ x.security
    · obtain ⟨q, hq, -, hcipher⟩ := h.split hslash
      obtain ⟨-, hnul', -, hin⟩ := cstr_eq_some hcipher
      obtain ⟨front, back, hx, hfront⟩ := List.eq_append_cons_of_mem hslash
      obtain ⟨henc, hback⟩ := encryption_cipher hx hfront
      have hstop : Column.security.stop i = Column.security.place i + 23 := rfl
      rw [henc] at hnul hq
      rw [hback] at hnul' hin
      rw [hx, List.length_append, List.length_cons]
      refine ⟨?_, by omega⟩
      rw [List.mem_append, List.mem_cons, not_or, not_or]
      exact ⟨hnul, by decide, hnul'⟩
    · rw [encryption_whole hslash] at hnul hlen
      exact ⟨hnul, hlen⟩

theorem kept_eq (hx : ∀ c, x.text c ≠ []) : x.kept = x := by
  have hchannel := keptText_eq (hx .channel)
  have hssid := keptText_eq (hx .ssid)
  have hbssid := keptText_eq (hx .bssid)
  have hsecurity := keptText_eq (hx .security)
  simp only [Network.text] at hchannel hssid hbssid hsecurity
  rw [Network.kept, hchannel, hssid, hbssid, hsecurity]

/-- An entry with what is left of the texts has the texts only if none is empty. -/
theorem stored_kept (hkept : Stored k st i x.kept) (h : Stored k st i x) (c : Column) :
    x.text c ≠ [] := by
  have hsame {c : Column} {t u : Str} (ht : cstr st (c.stop i) (c.place i) = some (keptText t))
      (hu : cstr st (c.stop i) (c.place i) = some u) : u ≠ [] := by
    rw [ht] at hu
    exact Option.some.inj hu ▸ keptText_ne_nil t
  cases c with
  | channel => exact hsame hkept.channel h.channel
  | ssid => exact hsame hkept.ssid h.ssid
  | bssid => exact hsame hkept.bssid h.bssid
  | security =>
    intro hx
    change x.security = [] at hx
    have hspace := hkept.security
    have hempty := h.security
    have hkeep : x.kept.security = [blank] := by
      rw [Network.kept, hx]
      rfl
    rw [hspace, Network.encryption, Network.encryption, hkeep, hx] at hempty
    exact absurd hempty (by decide)

theorem range_find?_eq_findIdx? {α : Type*} {xs : List α} {f : ℕ → Bool} {g : α → Bool}
    (h : ∀ i x, xs[i]? = some x → f i = g x) : (List.range xs.length).find? f = xs.findIdx? g := by
  apply Option.ext
  intro i
  rw [List.find?_range_eq_some, List.findIdx?_eq_some_iff_getElem, List.mem_range]
  have hget : ∀ j (hj : j < xs.length), f j = g xs[j] := fun j hj =>
    h j _ (List.getElem?_eq_getElem hj)
  constructor
  · rintro ⟨hf, hi, hbefore⟩
    refine ⟨hi, hget i hi ▸ hf, fun j hj => ?_⟩
    rw [← hget j (by omega)]
    simpa using hbefore j hj
  · rintro ⟨hi, hg, hbefore⟩
    refine ⟨(hget i hi).trans hg, hi, fun j hj => ?_⟩
    rw [hget j (by omega)]
    simpa using hbefore j hj

/-- The search over entries that have the networks. -/
theorem wifiFindAp_eq (hcount : t.count = xs.length)
    (hstored : ∀ i x, xs[i]? = some x → Stored k t.st i x) {name : Str} {bssid : Option Str}
    (hname : 0 ∉ name) (hbssid : ∀ b ∈ bssid, 0 ∉ b) :
    wifiFindAp t name bssid = firstNetwork xs name bssid := by
  have hequal {c : Column} {i : ℕ} {t' u : Str}
      (h : cstr t.st (c.stop i) (c.place i) = some u) (hnul : 0 ∉ t') :
      streq t' t.st (c.place i) = decide (u = t') := by
    rw [Bool.eq_iff_iff, streq_iff h hnul, decide_eq_true_iff]
  unfold wifiFindAp firstNetwork
  rw [hcount]
  split
  · exact range_find?_eq_findIdx? fun i x hx => hequal (hstored i x hx).bssid (hbssid _ rfl)
  · exact range_find?_eq_findIdx? fun i x hx => hequal (hstored i x hx).ssid hname

/-- The networks of a printout are surveyed exactly when all of them are storable. -/
theorem surveys_iff {pr : Printout} {a : Answer} (hholds : Holds limit pr a) :
    (∃ t', wifiSiteSurvey k limit a t = some t' ∧ Surveys k pr.networks t') ↔
      ∀ x ∈ pr.networks, Storable x := by
  have hnetwork : ∀ (i : ℕ) (l : Line), pr.lines[i]? = some l → pr.networks[i]? = some l.network := by
    intro i l hl
    rw [Printout.networks, List.getElem?_map, hl]
    rfl
  have hlen : pr.networks.length = pr.lines.length := List.length_map _
  constructor
  · rintro ⟨t', hrun, hcount, hstored, -⟩
    have hterm : ∀ l ∈ pr.lines, Terminated l.network := by
      intro l hl
      obtain ⟨i, hi, rfl⟩ := List.mem_iff_getElem.mp hl
      exact stored_terminated (hstored i _ (hnetwork i _ (List.getElem?_eq_getElem hi)))
    obtain ⟨t'', hrun', -, hall⟩ := wifiSiteSurvey_stored (k := k) t hholds hterm
    rw [hrun] at hrun'
    obtain rfl := Option.some.inj hrun'
    intro x hx c
    obtain ⟨l, hl, rfl⟩ := List.mem_map.mp hx
    obtain ⟨i, hi, rfl⟩ := List.mem_iff_getElem.mp hl
    have hline := List.getElem?_eq_getElem hi
    exact ⟨stored_kept (hall i _ hline) (hstored i _ (hnetwork i _ hline)) c,
      hterm _ hl c⟩
  · intro hstorable
    have hterm : ∀ l ∈ pr.lines, Terminated l.network := fun l hl c =>
      (hstorable _ (List.mem_map_of_mem hl) c).2
    obtain ⟨t', hrun, hcount, hall⟩ := wifiSiteSurvey_stored (k := k) t hholds hterm
    have hstored : ∀ i x, pr.networks[i]? = some x → Stored k t'.st i x := by
      intro i x hx
      rw [Printout.networks, List.getElem?_map, Option.map_eq_some_iff] at hx
      obtain ⟨l, hl, rfl⟩ := hx
      have hkept := hall i l hl
      rwa [kept_eq fun c => (hstorable _ (List.mem_map_of_mem (List.mem_of_getElem? hl)) c).1]
        at hkept
    refine ⟨t', hrun, hcount.trans hlen.symm, hstored, fun name bssid hname hbssid => ?_⟩
    exact wifiFindAp_eq (hcount.trans hlen.symm) hstored hname hbssid

end Found

section Bounds

variable {z p save' len : ℕ} {m s' : Mem} {found : Option ℕ} {ps : List ℕ}

theorem splitSecurity_runs (hi : i < 64) (hz : tableSize ≤ z) (hlimit : z < k.limit)
    (hnul : st z = 0) : ∃ st', splitSecurity k st i = some st' ∧ st' z = 0 := by
  have hplace : Column.security.place i ≤ z := by
    simp only [Column.place, Column.offset, tableSize, entrySize] at hz ⊢
    omega
  have hkeep : ∀ (u : Mem) (b : ℕ), setCrypto u i b z = u z := fun u b => by
    refine setCrypto_outside _ _ (Or.inr ?_)
    simp only [cryptoPlace, tableSize, entrySize] at hz ⊢
    omega
  obtain ⟨hit, hsearch⟩ := strchr_ends (c := slash) hplace hnul hlimit
  rw [splitSecurity, hsearch]
  cases hit with
  | none => exact ⟨_, rfl, (hkeep _ _).trans hnul⟩
  | some q =>
    refine ⟨_, rfl, (hkeep _ _).trans ?_⟩
    rw [Function.update_apply, hkeep, hnul, ite_self]

theorem surveyLine_runs (hcount : w.count < 64) (hz : tableSize ≤ z) (hlimit : z < k.limit)
    (hnul : w.st z = 0) (hin : p + 80 ≤ limit)
    (hnext : strtok w.s limit newline w.save = some (found, s', save')) :
    ∃ st', surveyLine k limit w p = some (found, ⟨⟨st', w.count + 1⟩, s', save'⟩) ∧ st' z = 0 := by
  have hfield : ∀ (c : Column) (line : ℕ) (st : Mem), line + c.width ≤ limit → st z = 0 →
      ∃ st', nextField limit w.s line st (c.place w.count) c.width = some (line + c.width, st') ∧
        st' z = 0 := by
    intro c line st hline hst
    have hbehind : c.place w.count + c.width ≤ z := by
      refine le_trans ?_ hz
      cases c <;> simp only [Column.place, Column.offset, Column.width, tableSize, entrySize] <;> omega
    have hwidth := width_pos c
    refine ⟨_, if_pos hline, ?_⟩
    rw [nextField_frame _ _ _ _ (by omega) (Or.inr hbehind), hst]
  obtain ⟨st1, hfield1, hnul1⟩ := hfield .channel p w.st (show p + 4 ≤ limit by omega) hnul
  obtain ⟨st2, hfield2, hnul2⟩ := hfield .ssid (p + Column.channel.width) st1
    (show p + 4 + 33 ≤ limit by omega) hnul1
  obtain ⟨st3, hfield3, hnul3⟩ := hfield .bssid (p + Column.channel.width + Column.ssid.width) st2
    (show p + 4 + 33 + 20 ≤ limit by omega) hnul2
  obtain ⟨st4, hfield4, hnul4⟩ := hfield .security
    (p + Column.channel.width + Column.ssid.width + Column.bssid.width) st3
    (show p + 4 + 33 + 20 + 23 ≤ limit by omega) hnul3
  obtain ⟨st', hsplit, hnul'⟩ := splitSecurity_runs hcount hz hlimit hnul4
  refine ⟨st', ?_, hnul'⟩
  simp only [surveyLine, hfield1, hfield2, hfield3, hfield4, hnext, hsplit, Option.bind_eq_bind,
    Option.bind_some]

theorem surveyLine_bound {r : Option ℕ × Survey} (h : surveyLine k limit w p = some r) :
    p + 80 ≤ limit := by
  have hfield {line o n : ℕ} {st : Mem} {r : ℕ × Mem}
      (h : nextField limit w.s line st o n = some r) : line + n ≤ limit ∧ r.1 = line + n := by
    unfold nextField at h
    split at h
    · exact ⟨‹_›, (Option.some.inj h).symm ▸ rfl⟩
    · cases h
  simp only [surveyLine, Option.bind_eq_bind, Option.bind_eq_some_iff] at h
  obtain ⟨r1, h1, r2, h2, r3, h3, r4, h4, -⟩ := h
  have hp1 := (hfield h1).2
  have hp2 := (hfield h2).2
  have hp3 := (hfield h3).2
  have hp4 := (hfield h4).1
  rw [hp3, hp2, hp1] at hp4
  exact hp4

/-- The loop ends well when each line it comes to is whole in the buffer. -/
theorem surveyLoop_isSome (hends : Ends m len limit) (hleft : Left m w.s newline len w.save)
    (hz : tableSize ≤ z) (hlimit : z < k.limit) (hnul : w.st z = 0) (hcount : w.count + n = 64)
    (hfound : found = ps.head?) (hrest : tokenStarts m newline w.save len = ps.tail) :
    (surveyLoop k limit n found w).isSome ↔ ∀ p ∈ ps.take n, p + 80 ≤ limit := by
  induction n generalizing w found ps with
  | zero => simp [surveyLoop]
  | succ n ih =>
    cases ps with
    | nil =>
      rw [hfound]
      simp [surveyLoop]
    | cons p ps =>
      rw [hfound, List.take_succ_cons, List.forall_mem_cons, List.head?_cons, surveyLoop]
      rw [List.tail_cons] at hrest
      by_cases hin : p + 80 ≤ limit
      · rw [and_iff_right hin]
        obtain ⟨s', q, hnext, hleft', hq⟩ := strtok_left hends (c := newline) (by decide) hleft
        rw [hrest] at hnext hq
        obtain ⟨st', hturn, hnul'⟩ := surveyLine_runs (by omega) hz hlimit hnul hin hnext
        rw [hturn]
        exact ih hleft' hnul' (by dsimp only; omega) rfl hq
      · have hnone : surveyLine k limit w p = none := by
          cases hturn : surveyLine k limit w p with
          | none => rfl
          | some r => exact absurd (surveyLine_bound hturn) hin
        rw [hnone]
        simp [hin]

/-- The survey stays in the result buffer exactly when each line that it stores is 80 bytes or
more in front of its end. -/
theorem wifiSiteSurvey_isSome {a : Answer} {t : Table} (hret : a.ret = 0) (hlength : 1 ≤ a.length)
    (hends : Ends a.data len limit) (hz : tableSize ≤ z) (hlimit : z < k.limit)
    (hnul : t.st z = 0) : (wifiSiteSurvey k limit a t).isSome ↔
      ∀ p ∈ ((tokenStarts a.data newline 0 len).drop 1).take 64, p + 80 ≤ limit := by
  have hne : newline ≠ 0 := by decide
  have hleft : Left a.data a.data newline len 0 := ⟨fun _ _ => rfl, Nat.zero_le _, Or.inl rfl⟩
  obtain ⟨start, hskip, -⟩ := skipByte_left hends hne hleft
  obtain ⟨s, q, hhead, hleft', hq⟩ := strtok_left hends hne hleft
  obtain ⟨s', q', hnext, hleft'', hq'⟩ := strtok_left hends hne hleft'
  rw [hq] at hnext hq'
  rw [← strtok_skip hskip] at hhead
  have hanswer : ¬(a.ret ≠ 0 ∨ a.length < 1) := by
    rw [not_or, not_not]
    exact ⟨hret, Nat.not_lt.mpr hlength⟩
  rw [wifiSiteSurvey, if_neg hanswer, hskip]
  dsimp only
  rw [hhead]
  dsimp only
  rw [hnext]
  dsimp only
  rw [Option.isSome_map, List.drop_one]
  exact surveyLoop_isSome (n := 64) (w := ⟨⟨t.st, 0⟩, s', q'⟩) hends hleft'' hz hlimit hnul rfl rfl hq'

end Bounds

/-- The driver's answer with a printout. -/
def printed (pr : Printout) : Answer := ⟨0, pr.text.length, fun i => pr.text.getD i 0⟩

theorem holds_printed {pr : Printout} (hfits : pr.text.length < limit) : Holds limit pr (printed pr) := by
  refine ⟨rfl, ?_, ?_, hfits⟩
  · change 1 ≤ pr.text.length
    simp only [Printout.text, List.length_append, List.length_singleton]
    omega
  · have hwhole : pr.text = [] ++ pr.text ++ [] := (List.append_nil _).symm
    have htext : Text (printed pr).data 0 pr.text := text_of_getD hwhole fun _ _ => rfl
    refine text_append.mpr ⟨htext, ?_, trivial⟩
    rw [Nat.zero_add]
    exact List.getD_eq_default _ _ le_rfl

def exampleChannel : Str := [0x36]
def exampleBssid : Str := [0x30, 0x31, 0x3a, 0x32, 0x33]
def exampleSecurity : Str := [0x57, 0x50, 0x41, slash, 0x41, 0x45, 0x53]

/-- A survey of one network on channel 6. -/
def exampleNetwork (ssid : Str) : Network := ⟨exampleChannel, ssid, exampleBssid, exampleSecurity⟩

def examplePrintout (ssid : Str) (hprints : Prints .ssid ssid) (hssid : ssid.length ≤ 32) :
    Printout where
  newlines := 1
  header := [0x43, 0x68]
  lines := [⟨exampleNetwork ssid, [], fun c => by
    cases c with
    | ssid => exact hprints
    | channel => exact (⟨by decide, by decide, by decide⟩ : Prints .channel exampleChannel)
    | bssid => exact (⟨by decide, by decide, by decide⟩ : Prints .bssid exampleBssid)
    | security => exact (⟨by decide, by decide, by decide⟩ : Prints .security exampleSecurity),
    hssid, List.not_mem_nil, List.not_mem_nil⟩]
  named := by decide
  line := by decide
  nul := by decide
  count := Nat.le_of_ble_eq_true rfl

def exampleLink : Link := ⟨0x411000, 0x401000, tableSize + 4, by decide, by decide, by decide⟩

def emptyTable : Table := ⟨fun _ => 0, 0⟩

def hiddenPrintout : Printout := examplePrintout [] ⟨by decide, by decide, by decide⟩ (by decide)

def namedPrintout : Printout := examplePrintout [0x68] ⟨by decide, by decide, by decide⟩ (by decide)

/-- A header line and a line of one byte. -/
def shortAnswer : Answer := ⟨0, 4, fun i => [0x43, newline, 0x36, newline].getD i 0⟩

theorem shortAnswer_ends (hlimit : 4 < limit) : Ends shortAnswer.data 4 limit :=
  ⟨hlimit, rfl, by decide⟩

/-- A survey of a printout stores its networks, so that they are found, exactly when no text is
empty, has a NUL or fills its column; and whatever the text, no byte behind the result buffer is
read exactly when the first 64 lines behind the header start 80 bytes or more in front of its end. -/
theorem survey_iff (k : Link) (limit : ℕ) (a : Answer) (t : Table) :
    (∀ pr : Printout, Holds limit pr a →
      ((∃ t', wifiSiteSurvey k limit a t = some t' ∧ Surveys k pr.networks t') ↔
        ∀ x ∈ pr.networks, Storable x)) ∧
    (∀ len z, a.ret = 0 → 1 ≤ a.length → Ends a.data len limit →
      tableSize ≤ z → z < k.limit → t.st z = 0 →
      ((wifiSiteSurvey k limit a t).isSome ↔
        ∀ p ∈ ((tokenStarts a.data newline 0 len).drop 1).take 64, p + 80 ≤ limit)) := by
  refine ⟨fun pr hholds => surveys_iff hholds, fun len z hret hlength hends hz hlimit hnul => ?_⟩
  exact wifiSiteSurvey_isSome hret hlength hends hz hlimit hnul

/-- With a network h and a line of two bytes. -/
theorem survey_named :
    (∃ t', wifiSiteSurvey exampleLink 4096 (printed namedPrintout) emptyTable = some t' ∧
      Surveys exampleLink namedPrintout.networks t') ∧
    ((wifiSiteSurvey exampleLink 82 shortAnswer
      emptyTable).isSome = true) := by
  refine ⟨((survey_iff exampleLink 4096 (printed namedPrintout) emptyTable).1 namedPrintout
    (holds_printed (by decide))).mpr ?_, ((survey_iff exampleLink 82 _ emptyTable).2 4 tableSize
      rfl (by decide) (shortAnswer_ends (by decide)) le_rfl (by decide) rfl).mpr (by decide)⟩
  intro x hx
  obtain rfl := List.mem_singleton.mp hx
  intro c
  cases c <;> decide

/-- A hidden network is stored with the name " " and not found under the empty one, and a line of
one byte that starts near the end of the buffer is read on behind it. -/
theorem hidden_ssid_blank :
    (∃ t', wifiSiteSurvey exampleLink 4096 (printed hiddenPrintout) emptyTable = some t' ∧
      cstr t'.st (Column.ssid.stop 0) (Column.ssid.place 0) = some [blank] ∧
      wifiFindAp t' [] none = none ∧ ¬Surveys exampleLink hiddenPrintout.networks t') ∧
    wifiSiteSurvey exampleLink 81 shortAnswer
      emptyTable = none := by
  constructor
  · obtain ⟨t', hrun, hcount, hall⟩ := wifiSiteSurvey_stored (k := exampleLink) emptyTable
      (holds_printed (show hiddenPrintout.text.length < 4096 by decide)) fun l hl c => by
        obtain rfl := List.mem_singleton.mp hl
        cases c <;> decide
    have hssid := (hall 0 _ rfl).ssid
    have hfind : wifiFindAp t' [] none = none := by
      have hne : streq [] t'.st (Column.ssid.place 0) ≠ true := by
        intro h
        exact absurd ((streq_iff hssid (by decide)).mp h) (by decide)
      have hlen : t'.count = 1 := hcount
      unfold wifiFindAp
      rw [hlen]
      simpa using hne
    refine ⟨t', hrun, hssid, hfind, fun h => ?_⟩
    have hfound := h.found [] none (by decide) (by simp)
    rw [hfind] at hfound
    exact absurd hfound (by decide)
  · have hread := wifiSiteSurvey_isSome (k := exampleLink) (a := shortAnswer) (t := emptyTable) rfl
      (by decide) (shortAnswer_ends (show 4 < 81 by decide)) le_rfl (by decide) rfl
    rw [← Option.not_isSome_iff_eq_none, hread]
    decide

end Iot7688.ApClient
