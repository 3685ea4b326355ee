/-
**Saved limits load back.**

The text of a file is made by printing a table and taken apart by reading one, and the two have
nothing in common but the names of the table and of its numbers.  What is printed is read as the
same limits; so what is left at a place by saving there is what loading finds.  Only numbers that
are too large for a file stand in the way, and they are found out while the text is made, before
there is anything to write.

Main results:

* `WireTree.Settings.print_of_le` — the text of limits;
* `WireTree.Settings.parse_of_print` — a printed text stands for the limits it was made of;
* `WireTree.Settings.load_of_store` — loading finds what saving has left;
* `WireTree.Settings.saved_limits_load` — **saved limits load back, and limits that cannot be saved
  leave the file alone**.
-/

import WireTree.Settings.File
import WireTree.Proofs.BitStream.Runs
import WireTree.Proofs.Toml.Document

set_option relaxedAutoImplicit false
set_option autoImplicit false

namespace WireTree.Settings

variable {l : Limits} {place place' : Place} {text : String}

/-! ### The text of a file -/

theorem isBare_tableKey : Toml.IsBare tableKey := by decide

theorem isBare_bufferKey : Toml.IsBare bufferKey := by decide

theorem isBare_textKey : Toml.IsBare textKey := by decide

theorem bufferKey_ne_textKey : bufferKey ≠ textKey := by decide

theorem forall_numbers_iff {P : String × Nat → Prop} : (∀ pair ∈ numbers l, P pair) ↔
    P (bufferKey, l.maxBufferBytes.toNat) ∧ P (textKey, l.maxTextBytes.toNat) := by
  simp [numbers]

/-- Limits are printed if both numbers are integers of a file. -/
theorem print_of_le (hbuffer : l.maxBufferBytes.toNat ≤ Toml.maxInteger)
    (htext : l.maxTextBytes.toNat ≤ Toml.maxInteger) :
    print l = .ok ("[stream]\nmax_buffer_bytes = " ++ toString l.maxBufferBytes.toNat ++
      "\nmax_string_length = " ++ toString l.maxTextBytes.toNat ++ "\n") := by
  rw [print, Toml.printTable_of_le (forall_numbers_iff.2 ⟨hbuffer, htext⟩)]
  simp only [numbers, List.map_cons, List.map_nil, Toml.printPair]
  refine congrArg Except.ok (String.toList_inj.1 ?_)
  simp [tableKey, bufferKey, textKey]

example : exampleText = "[stream]\nmax_buffer_bytes = 8192\nmax_string_length = 1024\n" := by
  decide

/-- Limits are not printed if a number is too large. -/
theorem print_of_lt
    (h : Toml.maxInteger < l.maxBufferBytes.toNat ∨ Toml.maxInteger < l.maxTextBytes.toNat) :
    print l = .error (.invalidSettings "Failed to serialize config") := by
  have hnone : Toml.printTable tableKey (numbers l) = none := by
    rcases h with hbuffer | htext
    · exact Toml.printTable_of_lt List.mem_cons_self hbuffer
    · exact Toml.printTable_of_lt (List.mem_cons_of_mem _ List.mem_cons_self) htext
  rw [print, hnone]

theorem limitOf_integer (n : UInt64) : limitOf (.integer n.toNat) = some n := by
  rw [limitOf, if_pos (Int.natCast_nonneg _), Int.toNat_natCast, UInt64.ofNat_toNat]

theorem ofEntries_numbers (l : Limits) :
    ofEntries [(tableKey, .table .header ((numbers l).map Toml.entryOf))] = some l := by
  have htext : (textKey == bufferKey) = false := beq_eq_false_iff_ne.2 bufferKey_ne_textKey.symm
  rw [ofEntries, List.lookup_cons_self]
  simp only [ofValue, numbers, List.map_cons, List.map_nil, Toml.entryOf, List.lookup_cons_self,
    List.lookup_cons, htext, limitsOf, Option.bind_some, limitOf_integer]

/-- **A printed text stands for the limits it was made of.** -/
theorem parse_of_print (h : print l = .ok text) : parse text = .ok l := by
  rw [print] at h
  split at h
  · rename_i printed hprinted
    cases h
    have hbare : ∀ pair ∈ numbers l, Toml.IsBare pair.1 :=
      forall_numbers_iff.2 ⟨isBare_bufferKey, isBare_textKey⟩
    have hnodup : ((numbers l).map Prod.fst).Nodup := by
      simpa [numbers] using bufferKey_ne_textKey
    rw [parse, Toml.parse_printTable isBare_tableKey hbare hnodup hprinted, Option.bind_some,
      ofEntries_numbers]
  · cases h

/-! ### Places -/

/-- What has been written is read. -/
theorem read_of_write (h : place.write text = (.ok (), place')) : place'.read = .ok text := by
  cases place with
  | file contents =>
      cases h
      rw [Place.read, fromUTF8?_eq_some_iff.2 rfl]
  | nowhere => cases h
  | directory => cases h

theorem store_eq_ok_iff : store l place = (.ok (), place') ↔
    ∃ text, print l = .ok text ∧ place.write text = (.ok (), place') := by
  rw [store]
  cases print l with
  | ok text => simp
  | error e => simp

/-- Loading finds what saving has left. -/
theorem load_of_store (h : store l place = (.ok (), place')) : load place' = .ok l := by
  obtain ⟨text, hprint, hwrite⟩ := store_eq_ok_iff.1 h
  rw [load, read_of_write hwrite]
  exact parse_of_print hprint

/-- What cannot be printed is not saved, and the place stays as it was. -/
theorem store_of_print_error {e : WireError} (h : print l = .error e) (place : Place) :
    store l place = (.error e, place) := by
  rw [store, h]

/-- **Saved limits load back.**  If both numbers are at most the largest of 64 bits with a sign, the
limits are printed as a table with two lines, in decimal, and the text stands for the limits again.
So does the file in which they have been saved, whatever it held before.  If a number is larger,
saving fails for the same reason wherever it is tried, and leaves the place as it was.  The example
is the text of the default limits. -/
theorem saved_limits_load (l : Limits) :
    (l.maxBufferBytes.toNat ≤ 2 ^ 63 - 1 ∧ l.maxTextBytes.toNat ≤ 2 ^ 63 - 1 →
      ∃ text, print l = .ok text ∧
        text = "[stream]\nmax_buffer_bytes = " ++ toString l.maxBufferBytes.toNat ++
          "\nmax_string_length = " ++ toString l.maxTextBytes.toNat ++ "\n" ∧
        parse text = .ok l ∧
        ∀ contents, store l (.file contents) = (.ok (), .file (some text.toUTF8)) ∧
          load (.file (some text.toUTF8)) = .ok l) ∧
    (2 ^ 63 - 1 < l.maxBufferBytes.toNat ∨ 2 ^ 63 - 1 < l.maxTextBytes.toNat →
      ∃ reason, ∀ place, store l place = (.error (.invalidSettings reason), place)) ∧
    print {} = .ok exampleText := by
  refine ⟨?_, ?_, rfl⟩
  · rintro ⟨hbuffer, htext⟩
    have hprint := print_of_le hbuffer htext
    refine ⟨_, hprint, rfl, parse_of_print hprint, ?_⟩
    intro contents
    have hstore : store l (.file contents) = (.ok (), .file (some _)) :=
      store_eq_ok_iff.2 ⟨_, hprint, rfl⟩
    exact ⟨hstore, load_of_store hstore⟩
  · intro hlarge
    exact ⟨_, store_of_print_error (print_of_lt hlarge)⟩

/-- The largest number that can be saved is loaded again; one more is not saved, and the file keeps
its single byte. -/
theorem saved_limits_load_largest :
    (∃ text, print ⟨9223372036854775807, 99⟩ = .ok text ∧
      text = "[stream]\nmax_buffer_bytes = 9223372036854775807\nmax_string_length = 99\n" ∧
      parse text = .ok ⟨9223372036854775807, 99⟩ ∧
      store ⟨9223372036854775807, 99⟩ (.file none) = (.ok (), .file (some text.toUTF8)) ∧
      load (.file (some text.toUTF8)) = .ok ⟨9223372036854775807, 99⟩) ∧
    (∃ reason, store ⟨8192, 9223372036854775808⟩ (.file (some ⟨#[91]⟩)) =
      (.error (.invalidSettings reason), .file (some ⟨#[91]⟩))) := by
  obtain ⟨hfits, -, -⟩ := saved_limits_load ⟨9223372036854775807, 99⟩
  obtain ⟨-, hlarge, -⟩ := saved_limits_load ⟨8192, 9223372036854775808⟩
  obtain ⟨text, hprint, htext, hparse, hplace⟩ := hfits ⟨by decide, by decide⟩
  obtain ⟨hstore, hload⟩ := hplace none
  obtain ⟨reason, hreason⟩ := hlarge (.inr (by decide))
  exact ⟨⟨text, hprint, htext.trans (by decide), hparse, hstore, hload⟩, reason, hreason _⟩

end WireTree.Settings
