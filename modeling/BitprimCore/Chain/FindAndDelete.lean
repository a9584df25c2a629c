import BitprimCore.Chain.Script

/-!
# Deletion of endorsements

`find_and_delete` searches for the bytes of a push wherever an operation could start. Operations are
a prefix code, so in a script that parses it finds the push itself and nothing else, and it deletes
the operations that are equal to it.
-/

namespace BitprimCore

open List Operation PrefixCode

namespace Operation

/-- The nominal push of data is an operation that the reader accepts. -/
theorem wellFormed_ofUncoded {data : DataChunk} (hlen : data.length ≤ maxPushDataSize) :
    (ofUncoded data false).WellFormed := by
  have hsize : data.length ≤ 520 := hlen
  rw [ofUncoded, if_neg (not_lt.mpr hlen)]
  refine ⟨rfl, ?_⟩
  simp only [opcodeFromData, nominalOpcodeFromData, opcodeFromSize, Bool.false_eq_true, if_false,
    Bool.false_and]
  split_ifs with hdirect hone htwo
  · rfl
  · simp only [maxUint8] at hone
    simp only [sizeWidth]
    omega
  · simp only [sizeWidth]
    omega
  · exact absurd (hsize.trans (by decide)) htwo

/-- The bytes of an operation stand in front of others only as that operation. -/
theorem toData_isPrefixOf_iff {push op : Operation} (hpush : push.WellFormed) (hop : op.WellFormed)
    (rest : DataChunk) : push.toData.isPrefixOf (op.toData ++ rest) ↔ push = op := by
  rw [ isPrefixOf_iff_prefix]
  constructor
  · rintro ⟨tail, htail⟩
    exact (determines_toData hpush hop _ _ htail).1
  · rintro rfl
    exact prefix_append _ _

end Operation

namespace Script

variable (script : Script)

/-- The operation is one that the reader of a build gives back. -/
def Readable (currency : Currency) (op : Operation) : Prop :=
  op.WellFormed ∧ op.data.length ≤ currency.getMaxBlockSize

variable {currency : Currency} {push : Operation} {ops : List Operation}

theorem operations_of_readable (h : ∀ op ∈ ops, Readable currency op) :
    (ofOperations ops).operations currency = ops :=
  operations_ofOperations (fun op hop => (h op hop).1) fun op hop => (h op hop).2

/-- The operations of a script that parses to its end are readable. -/
theorem readable_operations {script : Script} (h : script.isValidOperations currency) :
    ∀ op ∈ script.operations currency, Readable currency op := by
  intro op hop
  have hwf := wellFormed_operations h op hop
  obtain ⟨bytes, rest, hread⟩ := fromData_of_mem_parseOperations hop hwf.1
  exact ⟨hwf, length_data_le_of_fromData hread⟩

theorem ofOperations_operations {script : Script} (h : script.isValidOperations currency) :
    ofOperations (script.operations currency) = script := by
  rw [ofOperations, operationsToData_operations h]

theorem length_le_operationsToData (ops : List Operation) :
    ops.length ≤ (operationsToData ops).length := by
  induction ops with
  | nil => exact le_refl 0
  | cons op ops ih =>
    have hne := length_pos_of_ne_nil op.toData_ne_nil
    simp only [operationsToData, flatMap_cons, length_append, length_cons] at ih ⊢
    omega

/-- The copies of a push in front are dropped. -/
theorem dropCopies_operationsToData (hpush : push.WellFormed)
    (hops : ∀ op ∈ ops, Readable currency op) {fuel : Nat} (hfuel : ops.length ≤ fuel) :
    dropCopies push.toData fuel (operationsToData ops) =
      operationsToData (ops.dropWhile fun op => op == push) := by
  induction ops generalizing fuel with
  | nil =>
    have hnone : push.toData.isPrefixOf [] = false := by
      cases htoData : push.toData with
      | nil => exact absurd htoData push.toData_ne_nil
      | cons byte bytes => rfl
    cases fuel with
    | zero => rfl
    | succ fuel =>
      rw [dropCopies]
      simp [operationsToData, hnone]
  | cons op ops ih =>
    obtain ⟨fuel, rfl⟩ : ∃ fuel', fuel = fuel' + 1 := ⟨fuel - 1, by simp at hfuel; omega⟩
    rw [forall_mem_cons] at hops
    have hiff := toData_isPrefixOf_iff hpush hops.1.1 (operationsToData ops)
    change dropCopies push.toData (fuel + 1) (op.toData ++ operationsToData ops) = _
    rw [dropCopies]
    by_cases heq : push = op
    · subst heq
      rw [if_pos (hiff.mpr rfl), drop_left, ih hops.2 (Nat.le_of_succ_le_succ hfuel)]
      simp
    · have hne : (op == push) = false := by simpa using Ne.symm heq
      rw [if_neg (mt hiff.mp heq), dropWhile_cons, hne]
      rfl

/-- Operations that are not a given one, behind the copies of it in front. -/
theorem filter_dropWhile (push : Operation) (ops : List Operation) :
    (ops.dropWhile fun op => op == push).filter (fun op => op != push) =
      ops.filter fun op => op != push := by
  induction ops with
  | nil => rfl
  | cons op ops ih =>
    by_cases heq : op = push
    · simp [heq, ih]
    · have hne : (op == push) = false := by simpa using heq
      rw [dropWhile_cons, hne]
      rfl

/-- The walk deletes the operations that are equal to the push. -/
theorem deleteValue_operationsToData (hpush : push.WellFormed)
    (hops : ∀ op ∈ ops, Readable currency op) {fuel : Nat} (hfuel : ops.length ≤ fuel) :
    deleteValue currency push.toData fuel (operationsToData ops) =
      operationsToData (ops.filter fun op => op != push) := by
  induction fuel generalizing ops with
  | zero =>
    obtain rfl := eq_nil_of_length_eq_zero (Nat.le_zero.mp hfuel)
    rfl
  | succ fuel ih =>
    rw [deleteValue]
    cases ops with
    | nil => rfl
    | cons first rest =>
      have hne : (operationsToData (first :: rest)).isEmpty = false := by
        simp [operationsToData, isEmpty_eq_false_iff, first.toData_ne_nil]
      rw [hne, dropCopies_operationsToData hpush hops (length_le_operationsToData _),
        ← filter_dropWhile]
      simp only [Bool.false_eq_true, if_false]
      have hsublist := dropWhile_sublist (l := first :: rest) fun op => op == push
      have hhead := head?_dropWhile_not (fun op => op == push) (first :: rest)
      generalize (first :: rest).dropWhile (fun op => op == push) = kept at hsublist hhead ⊢
      cases kept with
      | nil => rfl
      | cons op kept =>
        have hkept : ∀ other ∈ op :: kept, Readable currency other :=
          fun other hmem => hops other (hsublist.subset hmem)
        rw [forall_mem_cons] at hkept
        have hread := fromData_toData hkept.1.1 hkept.1.2 (operationsToData kept)
        have hlen : kept.length ≤ fuel := by
          have hle := hsublist.length_le
          simp only [length_cons] at hle hfuel
          omega
        have hop : (op != push) := by simpa using hhead
        have hdata : operationsToData (op :: kept) = op.toData ++ operationsToData kept := rfl
        rw [hdata, hread, filter_cons, if_pos hop]
        simp only [ih hkept.2 hlen]
        rfl

/-- An endorsement is deleted from a script that parses where it is pushed nominally. -/
theorem findAndDelete_ofOperations {endorsement : DataChunk} (hne : endorsement ≠ [])
    (hlen : endorsement.length ≤ maxPushDataSize) (hops : ∀ op ∈ ops, Readable currency op) :
    (ofOperations ops).findAndDelete currency [endorsement] =
      ofOperations (ops.filter fun op => op != ofUncoded endorsement false) := by
  have hdelete := deleteValue_operationsToData (wellFormed_ofUncoded hlen) hops
    (length_le_operationsToData ops)
  simp only [findAndDelete, foldl_cons, foldl_nil, findAndDeleteOne, ofOperations]
  rw [if_neg (by simpa using hne), hdelete]

/-- The iterator into the bytes, the reader over them (`none` once a read has failed) and the places
where the value was found. -/
structure Search where
  it : Nat
  source : Option DataChunk
  found : List Nat

namespace Search

/-- The exhaustion test handles stream end and op deserialization failure. -/
def isExhausted (search : Search) : Bool :=
  match search.source with
  | none => true
  | some source => source.isEmpty

/-- The value starts at the iterator. -/
def startsWith (value bytes : DataChunk) (search : Search) : Bool :=
  value.isPrefixOf (bytes.drop search.it)

/-- Track a found value for later deletion; the reader skips it and the iterator passes it. -/
def track (value : DataChunk) (search : Search) : Search where
  it := search.it + value.length
  source := (search.source.bind (readBytes value.length)).map Prod.snd
  found := search.found ++ [search.it]

/-- Tracks adjacent copies. -/
def trackValues (value bytes : DataChunk) : (fuel : Nat) → Search → Search
  | 0, search => search
  | fuel + 1, search =>
    if search.startsWith value bytes then trackValues value bytes fuel (search.track value)
    else search

/-- Read the next operation; the iterator passes it unless the read failed. -/
def readOperation (currency : Currency) (search : Search) : Search :=
  match search.source.bind (fromData currency) with
  | none => { search with source := none }
  | some (op, source) =>
    { search with it := search.it + op.serializedSize, source := some source }

/-- Searches up to the end. -/
def run (currency : Currency) (value bytes : DataChunk) : (fuel : Nat) → Search → Search
  | 0, search => search
  | fuel + 1, search =>
    if search.isExhausted then search
    else
      run currency value bytes fuel
        ((trackValues value bytes bytes.length search).readOperation currency)

end Search

/-- Delete the bytes from a position on. -/
def eraseAt (value bytes : DataChunk) (it : Nat) : DataChunk :=
  bytes.take it ++ bytes.drop (it + value.length)

/-- Found values are deleted in reverse, which keeps the positions that remain. -/
def eraseFound (value bytes : DataChunk) (found : List Nat) : DataChunk :=
  found.reverse.foldl (eraseAt value) bytes

/-- The search and the deletion of one endorsement, pass by pass (`find_and_delete_`). -/
def scanAndDeleteOne (currency : Currency) (script : Script) (endorsement : DataChunk) : Script :=
  if endorsement.isEmpty then script
  else
    let value := (ofUncoded endorsement false).toData
    let search := Search.run currency value script.bytes script.bytes.length ⟨0, script.bytes, []⟩
    ⟨eraseFound value script.bytes search.found⟩

/-- Each endorsement in turn. -/
def scanAndDelete (currency : Currency) (script : Script) (endorsements : List DataChunk) :
    Script :=
  endorsements.foldl (scanAndDeleteOne currency) script

section

variable {value : DataChunk}

/-- There is never a lack of fuel to drop copies. -/
theorem dropCopies_eq_of_le (hval : value ≠ []) {fuel fuel' : Nat} {source : DataChunk}
    (hfuel : source.length ≤ fuel) (hfuel' : source.length ≤ fuel') :
    dropCopies value fuel source = dropCopies value fuel' source := by
  have hpos := length_pos_of_ne_nil hval
  have hnil : ∀ fuel, dropCopies value fuel [] = [] := by
    intro fuel
    cases fuel with
    | zero => rfl
    | succ fuel =>
      obtain ⟨byte, tail, rfl⟩ := exists_cons_of_ne_nil hval
      rfl
  induction fuel generalizing fuel' source with
  | zero =>
    obtain rfl := eq_nil_of_length_eq_zero (Nat.le_zero.mp hfuel)
    exact (hnil fuel').symm
  | succ fuel ih =>
    cases fuel' with
    | zero =>
      obtain rfl := eq_nil_of_length_eq_zero (Nat.le_zero.mp hfuel')
      exact hnil (fuel + 1)
    | succ fuel' =>
      rw [dropCopies, dropCopies]
      split_ifs
      · apply ih <;> rw [length_drop] <;> omega
      · rfl

theorem eraseAt_append (front rest : DataChunk) :
    eraseAt value (front ++ (value ++ rest)) front.length = front ++ rest := by
  rw [eraseAt, take_left, ← drop_drop, drop_left, drop_left]

/-- Tracking skips the copies in front of the reader, and deleting what it found deletes them. -/
theorem trackValues_spec (value : DataChunk) (fuel : Nat) (front source : DataChunk)
    (found : List Nat) :
    ∃ (skipped : DataChunk) (tracked : List Nat),
      source = skipped ++ dropCopies value fuel source ∧
      Search.trackValues value (front ++ source) fuel ⟨front.length, some source, found⟩ =
        ⟨(front ++ skipped).length, some (dropCopies value fuel source), found ++ tracked⟩ ∧
      ∀ rest, tracked.foldr (fun it bytes => eraseAt value bytes it)
        (front ++ skipped ++ rest) = front ++ rest := by
  induction fuel generalizing front source found with
  | zero => exact ⟨[], [], rfl, by simp [Search.trackValues, dropCopies], by simp⟩
  | succ fuel ih =>
    have hstarts : Search.startsWith value (front ++ source) ⟨front.length, some source, found⟩ =
        value.isPrefixOf source := by
      rw [Search.startsWith, drop_left]
    rw [Search.trackValues, hstarts, dropCopies]
    by_cases hprefix : value.isPrefixOf source = true
    · -- the next copy moves from the reader to the bytes already passed
      obtain ⟨rest, rfl⟩ := isPrefixOf_iff_prefix.mp hprefix
      obtain ⟨skipped, tracked, hrest, htrack, hdelete⟩ :=
        ih (front ++ value) rest (found ++ [front.length])
      have hstep : Search.track value ⟨front.length, some (value ++ rest), found⟩ =
          ⟨(front ++ value).length, some rest, found ++ [front.length]⟩ := by
        simp [Search.track, readBytes]
      refine ⟨value ++ skipped, front.length :: tracked, ?_, ?_, ?_⟩
      · rw [if_pos hprefix, drop_left, append_assoc, ← hrest]
      · rw [if_pos hprefix, if_pos hprefix, drop_left, hstep, ← append_assoc, htrack]
        simp
      · intro tail
        have hinner := hdelete tail
        simp only [append_assoc] at hinner ⊢
        rw [foldr_cons, hinner, eraseAt_append]
    · rw [if_neg hprefix, if_neg hprefix]
      exact ⟨[], [], rfl, by simp, by simp⟩

/-- A search that has failed to read stays where it is. -/
theorem run_failed (currency : Currency) (bytes : DataChunk) (fuel it : Nat) (found : List Nat) :
    Search.run currency value bytes fuel ⟨it, none, found⟩ = ⟨it, none, found⟩ := by
  cases fuel <;> rfl

/-- The iterator and the reader stay together, so the search finds what the walk deletes. -/
theorem run_spec (currency : Currency) (hval : value ≠ []) (fuel : Nat)
    (front source : DataChunk) (found : List Nat) :
    ∃ tracked : List Nat,
      (Search.run currency value (front ++ source) fuel ⟨front.length, some source, found⟩).found =
        found ++ tracked ∧
      tracked.foldr (fun it bytes => eraseAt value bytes it) (front ++ source) =
        front ++ deleteValue currency value fuel source := by
  induction fuel generalizing front source found with
  | zero => exact ⟨[], by simp [Search.run], rfl⟩
  | succ fuel ih =>
    rw [Search.run, deleteValue]
    by_cases hempty : source.isEmpty = true
    · obtain rfl := isEmpty_iff.mp hempty
      exact ⟨[], by simp [Search.isExhausted], rfl⟩
    · have hexhausted : Search.isExhausted ⟨front.length, some source, found⟩ = source.isEmpty :=
        rfl
      obtain ⟨skipped, tracked, hsource, htrack, hdelete⟩ :=
        trackValues_spec value (front ++ source).length front source found
      have hcopies : dropCopies value (front ++ source).length source =
          dropCopies value source.length source :=
        dropCopies_eq_of_le hval (by rw [length_append]; omega) (le_refl _)
      rw [hcopies] at hsource htrack
      rw [hexhausted, if_neg hempty, if_neg hempty, htrack]
      generalize dropCopies value source.length source = kept at hsource
      subst hsource
      cases hread : fromData currency kept with
      | none =>
        refine ⟨tracked, ?_, ?_⟩
        · simp only [Search.readOperation, Option.bind_some, hread, run_failed]
        · simp only [hread]
          rw [← append_assoc, hdelete]
      | some pair =>
        obtain ⟨op, rest⟩ := pair
        obtain ⟨rfl, -⟩ := fromData_eq_some hread
        obtain ⟨later, hlater, herase⟩ := ih (front ++ skipped ++ op.toData) rest (found ++ tracked)
        refine ⟨tracked ++ later, ?_, ?_⟩
        · simp only [Search.readOperation, Option.bind_some, hread]
          rw [← op.length_toData, ← length_append]
          simpa only [append_assoc] using hlater
        · have hinner := hdelete (op.toData ++ deleteValue currency value fuel rest)
          simp only [append_assoc] at herase hinner ⊢
          rw [foldr_append, herase, hinner]
          simp only [hread]

/-- The two passes of the source are the walk of the model, on every script. -/
theorem scanAndDeleteOne_eq (currency : Currency) (script : Script) (endorsement : DataChunk) :
    script.scanAndDeleteOne currency endorsement = script.findAndDeleteOne currency endorsement := by
  rw [scanAndDeleteOne, findAndDeleteOne]
  split_ifs with hempty
  · rfl
  · obtain ⟨tracked, hfound, herase⟩ := run_spec currency
      (toData_ne_nil (ofUncoded endorsement false)) script.bytes.length []
      script.bytes []
    simp only [nil_append] at hfound herase
    simp only [length_nil] at hfound
    simp only [hfound, eraseFound, foldl_reverse, herase]

theorem scanAndDelete_eq (currency : Currency) (script : Script) (endorsements : List DataChunk) :
    script.scanAndDelete currency endorsements = script.findAndDelete currency endorsements := by
  have hstep : scanAndDeleteOne currency = findAndDeleteOne currency := by
    funext script endorsement
    exact scanAndDeleteOne_eq currency script endorsement
  rw [scanAndDelete, findAndDelete, hstep]

end

/-- The operation pushes one of the endorsements nominally. -/
def pushesEndorsement (endorsements : List DataChunk) (op : Operation) : Bool :=
  endorsements.any fun endorsement => op == ofUncoded endorsement false

/-- The endorsements are deleted one after the other, each from what the others have left. -/
theorem findAndDelete_eq_filter {endorsements : List DataChunk}
    (hends : ∀ endorsement ∈ endorsements, endorsement ≠ [] ∧ endorsement.length ≤ maxPushDataSize)
    (hops : ∀ op ∈ ops, Readable currency op) :
    (ofOperations ops).findAndDelete currency endorsements =
      ofOperations (ops.filter fun op => !pushesEndorsement endorsements op) := by
  induction endorsements generalizing ops with
  | nil => simp [findAndDelete, pushesEndorsement]
  | cons endorsement endorsements ih =>
    rw [forall_mem_cons] at hends
    obtain ⟨⟨hne, hlen⟩, hrest⟩ := hends
    have hone := findAndDelete_ofOperations hne hlen hops
    have hleft : ∀ op ∈ ops.filter fun op => op != ofUncoded endorsement false,
        Readable currency op := fun op hop => hops op (mem_of_mem_filter hop)
    simp only [findAndDelete, foldl_cons, foldl_nil] at hone ih ⊢
    rw [hone, ih hrest hleft, filter_filter]
    congr 2
    funext op
    simp only [pushesEndorsement, any_cons, Bool.not_or, bne, Bool.and_comm]

theorem findAndDelete_append (front back : List DataChunk) :
    script.findAndDelete currency (front ++ back) =
      (script.findAndDelete currency front).findAndDelete currency back :=
  foldl_append

theorem findAndDelete_empty (endorsements : List DataChunk) :
    script.findAndDelete currency ([] :: endorsements) =
      script.findAndDelete currency endorsements :=
  rfl

/-- Only whole operations are deleted, those that push an endorsement nominally; a second deletion
finds nothing, and an empty endorsement is as none, in any script. -/
theorem scanAndDelete_removes_operations (currency : Currency) (script : Script)
    (hscript : script.isValidOperations currency = true) (endorsements : List DataChunk)
    (hendorsements : ∀ endorsement ∈ endorsements,
      1 ≤ endorsement.length ∧ endorsement.length ≤ maxPushDataSize) :
    (script.scanAndDelete currency endorsements).operations currency =
        (script.operations currency).filter (fun op => !pushesEndorsement endorsements op) ∧
      (script.scanAndDelete currency endorsements).scanAndDelete currency endorsements =
        script.scanAndDelete currency endorsements ∧
      ∀ (other : Script) (front back : List DataChunk),
        other.scanAndDelete currency (front ++ [] :: back) =
          other.scanAndDelete currency (front ++ back) := by
  have hsizes : ∀ endorsement ∈ endorsements,
      endorsement ≠ [] ∧ endorsement.length ≤ maxPushDataSize := by
    intro endorsement hmem
    obtain ⟨hpos, hlength⟩ := hendorsements endorsement hmem
    exact ⟨ne_nil_of_length_pos hpos, hlength⟩
  have hreadable := readable_operations hscript
  have hkept : ∀ op ∈ (script.operations currency).filter
      (fun op => !pushesEndorsement endorsements op), Readable currency op :=
    fun op hop => hreadable op (mem_of_mem_filter hop)
  have hdelete : script.scanAndDelete currency endorsements = ofOperations
      ((script.operations currency).filter fun op => !pushesEndorsement endorsements op) := by
    rw [scanAndDelete_eq, ← findAndDelete_eq_filter hsizes hreadable,
      ofOperations_operations hscript]
  refine ⟨?_, ?_, ?_⟩
  · rw [hdelete, operations_of_readable hkept]
  · rw [hdelete, scanAndDelete_eq, findAndDelete_eq_filter hsizes hkept, filter_filter]
    simp only [Bool.and_self]
  · intro other front back
    rw [scanAndDelete_eq, scanAndDelete_eq, findAndDelete_append, findAndDelete_empty,
      ← findAndDelete_append]

/-- A push of the endorsement that is not nominal stays. -/
theorem scanAndDelete_removes_nominal_push :
    (⟨[0x01, 0xaa, 0x4c, 0x01, 0xaa]⟩ : Script).isValidOperations .btc = true ∧
      ((⟨[0x01, 0xaa, 0x4c, 0x01, 0xaa]⟩ : Script).scanAndDelete .btc [[0xaa]]).operations .btc =
        [{ code := .pushOneSize, data := [0xaa] }] :=
  ⟨by decide,
    (scanAndDelete_removes_operations .btc _ (by decide) [[0xaa]] (by decide)).1.trans (by decide)⟩

end Script

end BitprimCore
