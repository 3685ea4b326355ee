/-
**Printed tables, read back.**

A table of numbers is printed a line at a time, and it is read a line at a time: the header opens
the table, and every line behind it puts one more entry into it.  The keys have to be plain ones,
that need no quotes, and no two of them may be the same, since a key is given once.

Main definitions:

* `WireTree.Toml.IsBare` — keys that need no quotes.

Main results:

* `WireTree.Toml.readLine_header`, `WireTree.Toml.readLine_printPair` — the lines of a table;
* `WireTree.Toml.apply_header`, `WireTree.Toml.apply_pair` — what they do to a document;
* `WireTree.Toml.parse_printTable` — **a printed table is read back**.
-/

import WireTree.Toml.Document
import WireTree.Toml.Print
import WireTree.Proofs.Toml.Number

set_option relaxedAutoImplicit false
set_option autoImplicit false

namespace WireTree.Toml

/-! ### Keys without quotes -/

/-- A key that needs no quotes. -/
def IsBare (key : String) : Prop := key.toList ≠ [] ∧ key.toList.all isKeyChar = true

instance (key : String) : Decidable (IsBare key) := inferInstanceAs (Decidable (_ ∧ _))

variable {key : String} {rest : List Char}

theorem IsBare.isKeyChar_of_mem (h : IsBare key) : ∀ c ∈ key.toList, isKeyChar c = true :=
  List.all_eq_true.1 h.2

theorem IsBare.exists_cons (h : IsBare key) :
    ∃ c cs, key.toList = c :: cs ∧ isKeyChar c = true := by
  cases hkey : key.toList with
  | nil => exact absurd hkey h.1
  | cons c cs => exact ⟨c, cs, rfl, h.isKeyChar_of_mem c (hkey ▸ List.mem_cons_self)⟩

/-- A key begins with one of its characters. -/
theorem IsBare.ne_cons (h : IsBare key) {other : Char} (hother : isKeyChar other = false)
    (tail : List Char) : key.toList ++ rest ≠ other :: tail := by
  obtain ⟨c, cs, hkey, hc⟩ := h.exists_cons
  intro heq
  rw [hkey, List.cons_append] at heq
  rw [(List.cons.inj heq).1, hother] at hc
  cases hc

theorem IsBare.skipBlank_eq (h : IsBare key) :
    skipBlank (key.toList ++ rest) = key.toList ++ rest :=
  skipBlank_eq_self (h.ne_cons rfl) (h.ne_cons rfl)

/-- A key is read up to the first character that is none of a key. -/
theorem IsBare.readKey_eq (h : IsBare key) (hrest : ∀ c ∈ rest.head?, isKeyChar c = false) :
    readKey (key.toList ++ rest) = some (key, rest) := by
  have htake : rest.takeWhile isKeyChar = [] := by
    cases rest with
    | nil => rfl
    | cons c rest => rw [List.takeWhile_cons, hrest c rfl]; rfl
  have hdrop : rest.dropWhile isKeyChar = rest := by
    cases rest with
    | nil => rfl
    | cons c rest => rw [List.dropWhile_cons, hrest c rfl]; rfl
  have hshort : readShortText (key.toList ++ rest) = none :=
    readShortText_eq_none (h.ne_cons rfl) (h.ne_cons rfl)
  rw [readKey, hshort]
  simp only [List.takeWhile_append_of_pos h.isKeyChar_of_mem, htake, List.append_nil,
    List.dropWhile_append_of_pos h.isKeyChar_of_mem, hdrop]
  split
  · rename_i hnil
    exact absurd hnil h.1
  · rw [String.ofList_toList]

/-- A key without dots is read as a single part, and the blanks behind it are skipped. -/
theorem IsBare.readKeyPath_eq (h : IsBare key) (hrest : ∀ c ∈ rest.head?, isKeyChar c = false)
    (hdot : ∀ tail, skipBlank rest ≠ '.' :: tail) :
    readKeyPath (key.toList ++ rest) = some (([], key), skipBlank rest) := by
  have hparts : readKeyParts maxKeyParts (key.toList ++ rest) = some ([key], skipBlank rest) := by
    rw [maxKeyParts, readKeyParts, h.skipBlank_eq, h.readKey_eq hrest]
    dsimp only
    split
    · rename_i hcons
      exact absurd hcons (hdot _)
    · rfl
  rw [readKeyPath, hparts]
  rfl

/-! ### The lines of a table -/

/-- The header of a table is read as such. -/
theorem readLine_header (h : IsBare key) (rest : List Char) :
    readLine ('[' :: (key.toList ++ ']' :: '\n' :: rest)) = some (.header [] key, rest) := by
  have hpath : readKeyPath (key.toList ++ ']' :: '\n' :: rest) =
      some (([], key), ']' :: '\n' :: rest) := by
    refine h.readKeyPath_eq ?_ ?_
    · rintro c ⟨⟩
      rfl
    · rintro tail ⟨⟩
  have hheader : readHeader (key.toList ++ ']' :: '\n' :: rest) =
      some (.header [] key, '\n' :: rest) := by
    rw [readHeader]
    · rw [hpath]
      rfl
    · exact h.ne_cons rfl
  rw [readLine, show skipBlank ('[' :: (key.toList ++ ']' :: '\n' :: rest)) =
    '[' :: (key.toList ++ ']' :: '\n' :: rest) from rfl, readLineBody, hheader]
  rfl

/-- A line that begins with a key is the entry that is read from it. -/
theorem IsBare.readLineBody_eq (h : IsBare key) {path : List String} {last : String}
    {value : Value} {left : List Char}
    (hpair : readPair readValue (key.toList ++ rest) = some (((path, last), value), left)) :
    readLineBody (key.toList ++ rest) = some (.pair path last value, left) := by
  obtain ⟨c, cs, hkey, hc⟩ := h.exists_cons
  have hne (other : Char) (hother : isKeyChar other = false) : (c == other) = false := by
    rw [beq_eq_false_iff_ne]
    rintro rfl
    rw [hother] at hc
    cases hc
  rw [hkey, List.cons_append] at hpair ⊢
  rw [readLineBody]
  · simp only [hne '#' rfl, hne '\n' rfl, hne '\r' rfl, hpair]
    rfl
  · rintro rfl
    cases hc

/-- A key, an equals sign with a space on either side and a value are an entry, whatever the
value. -/
theorem IsBare.readLine_pair (h : IsBare key) {cs : List Char} {value : Value}
    (hblank : skipBlank cs = cs) (hvalue : readValue cs = some (value, '\n' :: rest)) :
    readLine (key.toList ++ ' ' :: '=' :: ' ' :: cs) = some (.pair [] key value, rest) := by
  have hpath : readKeyPath (key.toList ++ ' ' :: '=' :: ' ' :: cs) =
      some (([], key), '=' :: ' ' :: cs) := by
    refine h.readKeyPath_eq ?_ ?_
    · rintro c ⟨⟩
      rfl
    · rintro tail ⟨⟩
  have hskip : skipBlank (' ' :: cs) = cs := hblank
  have hpair : readPair readValue (key.toList ++ ' ' :: '=' :: ' ' :: cs) =
      some ((([], key), value), '\n' :: rest) := by
    rw [readPair, hpath]
    simp only [hskip, hvalue]
  rw [readLine, h.skipBlank_eq, h.readLineBody_eq hpair]
  rfl

/-- The entry that a printed number is read as. -/
def entryOf (pair : String × Nat) : String × Value := (pair.1, .integer pair.2)

theorem toList_printPair (pair : String × Nat) : (printPair pair).toList =
    pair.1.toList ++ ' ' :: '=' :: ' ' :: (Nat.toDigits 10 pair.2 ++ ['\n']) := by
  simp [printPair]

/-- The line of an entry is read as such, if its number is not too large. -/
theorem readLine_printPair {pair : String × Nat} (h : IsBare pair.1) (hle : pair.2 ≤ maxInteger)
    (rest : List Char) : readLine ((printPair pair).toList ++ rest) =
      some (.pair [] (entryOf pair).1 (entryOf pair).2, rest) := by
  have hline : (printPair pair).toList ++ rest =
      pair.1.toList ++ ' ' :: '=' :: ' ' :: (Nat.toDigits 10 pair.2 ++ '\n' :: rest) := by
    simp [toList_printPair]
  have hend : Delimits ('\n' :: rest) := by
    rintro c ⟨⟩
    decide
  have hlt : pair.2 < 2 ^ 63 := by
    rw [maxInteger] at hle
    omega
  rw [hline]
  refine h.readLine_pair (skipBlank_eq_self (toDigits_ne_cons _ rfl) (toDigits_ne_cons _ rfl)) ?_
  rw [readValue_toDigits _ hend, if_pos hlt]
  rfl

/-! ### What the lines do -/

theorem apply_header (key : String) : (⟨[], []⟩ : Open).apply (.header [] key) =
    some ⟨[(key, .table .header [])], [key]⟩ := rfl

/-- An entry with a new key goes behind those that the open table has. -/
theorem apply_pair {entries : Entries} {entry : String × Value}
    (hfresh : ∀ e ∈ entries, e.1 ≠ entry.1) :
    (⟨[(key, .table .header entries)], [key]⟩ : Open).apply (.pair [] entry.1 entry.2) =
      some ⟨[(key, .table .header (entries ++ [entry]))], [key]⟩ := by
  have hlookup : entries.lookup entry.1 = none := by
    rw [List.lookup_eq_none_iff]
    intro e he
    exact bne_iff_ne.2 (hfresh e he).symm
  have hinsert : insert [] entry.1 entry.2 .header entries = some (entries ++ [entry]) := by
    simp only [insert, updateAt, insertNew, hlookup]
    rfl
  simp only [Open.apply, updateAt, List.lookup_cons_self, hinsert, replace]
  simp

/-! ### Whole tables -/

theorem readLines_of_readLine {fuel : Nat} {d d' : Open} {cs rest : List Char} {line : Line}
    (hcs : cs ≠ []) (hline : readLine cs = some (line, rest)) (happly : d.apply line = some d') :
    readLines (fuel + 1) d cs = readLines fuel d' rest := by
  cases cs with
  | nil => exact absurd rfl hcs
  | cons c cs =>
      rw [readLines]
      · simp only [hline, happly]
      · exact hcs

/-- The lines of a table put one entry after the other behind those that it has already, `done`.
The induction is on the lines that are left, so `done` grows by an entry with each of them. -/
theorem readLines_pairs {pairs : List (String × Nat)} {done : Entries} {fuel : Nat}
    (hbare : ∀ pair ∈ pairs, IsBare pair.1) (hle : ∀ pair ∈ pairs, pair.2 ≤ maxInteger)
    (hnodup : (done.map Prod.fst ++ pairs.map Prod.fst).Nodup) (hfuel : pairs.length ≤ fuel) :
    readLines fuel ⟨[(key, .table .header done)], [key]⟩
        (pairs.flatMap fun pair => (printPair pair).toList) =
      some [(key, .table .header (done ++ pairs.map entryOf))] := by
  induction pairs generalizing done fuel with
  | nil => simp [readLines]
  | cons pair pairs ih =>
      obtain ⟨hpair, hbare⟩ := List.forall_mem_cons.1 hbare
      obtain ⟨hn, hle⟩ := List.forall_mem_cons.1 hle
      obtain ⟨fuel, rfl⟩ : ∃ k, fuel = k + 1 := ⟨fuel - 1, by simp at hfuel; omega⟩
      have hdone : ((done ++ [entryOf pair]).map Prod.fst ++ pairs.map Prod.fst).Nodup := by
        rwa [List.map_append, List.append_assoc]
      have hfresh : ∀ entry ∈ done, entry.1 ≠ (entryOf pair).1 := by
        intro entry hentry
        exact (List.nodup_append.1 hnodup).2.2 entry.1 (List.mem_map_of_mem hentry) pair.1
          List.mem_cons_self
      have hne : (printPair pair).toList ++
          pairs.flatMap (fun pair => (printPair pair).toList) ≠ [] := by
        simp [toList_printPair]
      rw [List.flatMap_cons, readLines_of_readLine hne (readLine_printPair hpair hn _)
        (apply_pair hfresh), ih hbare hle hdone (Nat.le_of_succ_le_succ hfuel), List.append_assoc,
        List.map_cons, List.singleton_append]

theorem length_le_length_lines (pairs : List (String × Nat)) :
    pairs.length ≤ (pairs.flatMap fun pair => (printPair pair).toList).length := by
  induction pairs with
  | nil => exact Nat.zero_le _
  | cons pair pairs ih =>
      have hpos : 0 < (printPair pair).toList.length := by
        rw [toList_printPair, List.length_append, List.length_cons]
        omega
      rw [List.flatMap_cons, List.length_append, List.length_cons]
      omega

/-- **A printed table is read back**, if its keys need no quotes and no two of them are the same. -/
theorem parse_printTable {pairs : List (String × Nat)} (hkey : IsBare key)
    (hbare : ∀ pair ∈ pairs, IsBare pair.1) (hnodup : (pairs.map Prod.fst).Nodup) {text : String}
    (h : printTable key pairs = some text) :
    parse text = some [(key, .table .header (pairs.map entryOf))] := by
  rw [printTable] at h
  split at h
  · rename_i hle
    cases h
    have htext : ("[" ++ key ++ "]\n" ++ String.join (pairs.map printPair)).toList = '[' ::
        (key.toList ++ ']' :: '\n' :: pairs.flatMap fun pair => (printPair pair).toList) := by
      simp [String.toList_join, List.flatMap_map]
    have hlen := length_le_length_lines pairs
    have hdone : (([] : Entries).map Prod.fst ++ pairs.map Prod.fst).Nodup := hnodup
    rw [parse, htext, skipByteOrderMark, if_neg (by decide), List.length_cons,
      readLines_of_readLine (List.cons_ne_nil _ _) (readLine_header hkey _) (apply_header key),
      readLines_pairs hbare hle hdone, List.nil_append]
    simp only [List.length_append, List.length_cons]
    omega
  · cases h

end WireTree.Toml
