import HCore.NetMask

/-!
The address parser on every text. It counts the dots and bounds the numbers
between them, but it does not ask for a digit, so an empty field is read as
zero; and the count of the dots has 32 bits. What it accepts beyond dotted
addresses is named here, and the parser is right wherever that does not occur.
-/

namespace HCore.InetAddr

open DecimalText NetMask

/-- The text is made of these digit strings with dots between them, and each
is at most 255; a string may be empty. -/
structure Fields (text : List UInt8) (fields : List (List UInt8)) : Prop where
  ne_nil : fields ≠ []
  text_eq : text = List.intercalate [46] fields
  digits : ∀ field ∈ fields, ∀ c ∈ field, IsDigit c
  small : ∀ field ∈ fields, decimal field ≤ 255

/-- The fields as bytes. -/
def octets (fields : List (List UInt8)) : List UInt8 :=
  fields.map (fun field => UInt8.ofNat (decimal field))

/-- Four numbers of at most 255 between single dots, as the bytes of an
address in network byte order. -/
def Address (text addr : List UInt8) : Prop :=
  ∃ fields, Fields text fields ∧ fields.length = 4 ∧ [] ∉ fields ∧ addr = octets fields

/-- The parser takes the text exactly if it is an address other than
255.255.255.255, and then returns that address. -/
def ParsesAddress (text : List UInt8) : Prop :=
  (inetAddr text ≠ inaddrNone ↔ ∃ addr, Address text addr ∧ addr ≠ inaddrNone) ∧
    ∀ addr, Address text addr → inetAddr text = addr

/-- The text has an empty field, or more fields than can be counted, and
nothing else is wrong with it. -/
def Slack (text : List UInt8) : Prop :=
  ∃ fields, Fields text fields ∧ fields.length % 2 ^ 32 = 4 ∧
    (fields.length ≠ 4 ∨ [] ∈ fields) ∧ octets (fields.drop (fields.length - 4)) ≠ inaddrNone

section

variable {text addr : List UInt8} {fields fields' : List (List UInt8)}

theorem Fields.unique (h : Fields text fields) (h' : Fields text fields') : fields = fields' := by
  have hdots {fs : List (List UInt8)} (hfs : Fields text fs) : text.splitOn 46 = fs := by
    rw [hfs.text_eq]
    refine List.splitOn_intercalate 46 (fun field hfield hdot => ?_) hfs.ne_nil
    exact absurd (hfs.digits field hfield 46 hdot) (by decide)
  exact (hdots h).symm.trans (hdots h')

theorem mem_dotted {c : UInt8} (hc : c ∈ List.intercalate [46] fields) :
    (∃ field ∈ fields, c ∈ field) ∨ c = 46 := by
  induction fields with
  | nil => simp [List.intercalate] at hc
  | cons first rest ih =>
    cases rest with
    | nil => exact Or.inl ⟨first, by simp, by simpa [List.intercalate] using hc⟩
    | cons second rest =>
      rw [List.intercalate_cons_cons, List.mem_append, List.mem_append] at hc
      rcases hc with (hc | hc) | hc
      · exact Or.inl ⟨first, by simp, hc⟩
      · exact Or.inr (List.mem_singleton.mp hc)
      · exact (ih hc).imp_left (fun ⟨field, hfield, hc⟩ =>
          ⟨field, List.mem_cons_of_mem _ hfield, hc⟩)

/-- Fields are made of digits, and dots stand between them. -/
theorem Fields.chars (h : Fields text fields) : ∀ c ∈ text, IsDigit c ∨ c = 46 := by
  intro c hc
  rw [h.text_eq] at hc
  exact (mem_dotted hc).imp_left (fun ⟨field, hfield, hc⟩ => h.digits field hfield c hc)

theorem numbers_iff_fields (vals : List ℕ) :
    Numbers 0 text vals ↔ ∃ fields, Fields text fields ∧ vals = fields.map decimal := by
  constructor
  · rintro ⟨first, rest, htext, hdigits, rfl, hle⟩
    have hvals : decimalFrom 0 first :: rest.map decimal = (first :: rest).map decimal := rfl
    rw [hvals, List.forall_mem_map] at hle
    exact ⟨first :: rest, ⟨by simp, htext, hdigits, hle⟩, hvals⟩
  · rintro ⟨fields, ⟨hne, htext, hdigits, hle⟩, rfl⟩
    obtain ⟨first, rest, rfl⟩ := List.exists_cons_of_ne_nil hne
    exact ⟨first, rest, htext, hdigits, rfl, List.forall_mem_map.mpr hle⟩

/-- The last four fields are the address. -/
theorem Fields.inetAddr_eq (h : Fields text fields) (hlen : fields.length % 2 ^ 32 = 4) :
    inetAddr text = octets (fields.drop (fields.length - 4)) := by
  have hvals : Numbers 0 text (fields.map decimal) := (numbers_iff_fields _).mpr ⟨fields, h, rfl⟩
  have hloop := (inetAddrFrom_eq_some_mod 0 0 _ (Nat.zero_le _) (by omega)).mpr
    ⟨_, hvals, by rw [List.length_map, Nat.zero_add, hlen], rfl⟩
  have hsplit : fields.map decimal = (fields.take (fields.length - 4)).map decimal ++
      (fields.drop (fields.length - 4)).map decimal := by
    rw [← List.map_append, List.take_append_drop]
  rw [hsplit, List.foldl_append] at hloop
  rw [inetAddr, hloop, Option.map_some, Option.getD_some, htonl_foldl]
  · rw [octets, List.map_map]
    rfl
  · rw [List.length_map, List.length_drop]
    omega
  · rw [List.forall_mem_map]
    exact fun field hfield => h.small field (List.mem_of_mem_drop hfield)

theorem fields_of_inetAddr (h : inetAddr text ≠ inaddrNone) :
    ∃ fields, Fields text fields ∧ fields.length % 2 ^ 32 = 4 := by
  cases hloop : inetAddrFrom 0 0 0 text with
  | none =>
    rw [inetAddr, hloop] at h
    exact absurd rfl h
  | some r =>
    obtain ⟨vals, hvals, hlen, -⟩ :=
      (inetAddrFrom_eq_some_mod 0 0 r (Nat.zero_le _) (by omega)).mp hloop
    obtain ⟨fields, hfields, rfl⟩ := (numbers_iff_fields vals).mp hvals
    rw [List.length_map, Nat.zero_add] at hlen
    exact ⟨fields, hfields, hlen⟩

theorem Address.inetAddr_eq (h : Address text addr) : inetAddr text = addr := by
  obtain ⟨fields, hfields, hfour, -, rfl⟩ := h
  rw [hfields.inetAddr_eq (by omega), hfour, Nat.sub_self, List.drop_zero]

end

theorem not_slack_of_parses {text : List UInt8} (h : ParsesAddress text) : ¬ Slack text := by
  obtain ⟨haccepts, -⟩ := h
  rintro ⟨fields, hfields, hcount, hslack, hne⟩
  have haddr := hfields.inetAddr_eq hcount
  rw [← haddr] at hne
  obtain ⟨addr, ⟨fields', hfields', hfour, hempty, -⟩, -⟩ := haccepts.mp hne
  obtain rfl := hfields.unique hfields'
  exact hslack.elim (fun hlen => hlen hfour) hempty

/-- **The address parser is right** exactly on the texts without slack. -/
theorem inet_addr_iff (text : List UInt8) : ParsesAddress text ↔ ¬ Slack text := by
  refine ⟨not_slack_of_parses, fun hslack => ?_⟩
  refine ⟨⟨fun hne => ?_, ?_⟩, fun addr h => h.inetAddr_eq⟩
  · obtain ⟨fields, hfields, hcount⟩ := fields_of_inetAddr hne
    have haddr := hfields.inetAddr_eq hcount
    rw [haddr] at hne
    have hstrict : fields.length = 4 ∧ [] ∉ fields := by
      by_contra hcon
      refine hslack ⟨fields, hfields, hcount, ?_, hne⟩
      rwa [not_and_or, not_not] at hcon
    obtain ⟨hfour, hempty⟩ := hstrict
    rw [hfour, Nat.sub_self, List.drop_zero] at hne
    exact ⟨octets fields, ⟨fields, hfields, hfour, hempty, rfl⟩, hne⟩
  · rintro ⟨addr, haddr, hne⟩
    rwa [haddr.inetAddr_eq]

/-- The text `1..2.3` is read as 1.0.2.3. -/
theorem empty_field_accepted : ¬ ∀ text, ParsesAddress text := by
  intro h
  have hdigits : ∀ field ∈ [[49], [], [50], [51]], ∀ c ∈ field, IsDigit c := by
    simp [IsDigit]
  exact not_slack_of_parses (h [49, 46, 46, 50, 46, 51])
    ⟨[[49], [], [50], [51]], ⟨by decide, rfl, hdigits, by decide⟩, rfl, Or.inr (by decide),
      by decide⟩

end HCore.InetAddr
