import CodeMate.Quota.Administration

/-!
# The cap on the policies of a tenant

What a creation inserts and a change writes of a policy (`inserted_cases`,
`written_cases`) determines how the number of enabled policies moves. The cap is
kept by the steps that meet `Guarded`: no insertion comes after the count that
it was checked against has grown to the cap, and no change enables a policy of a
tenant that is at the cap (`cap_kept`). Any other step that writes exceeds it
(`cap_exceeded`), as `cap_passed` does in two ways.
-/

namespace CodeMate.Quota.Administration

open Framework

/-! ## What is written -/

section

variable {ω : Type*} [DecidableEq ω] {s : Settings}

theorem normalizePolicyPayload_ok {tenantId : String} {payload : Payload} {n : Normalized}
    (h : normalizePolicyPayload s tenantId payload = .ok n) :
    n.tenantId = tenantId ∧ n.enabled = payload.enables := by
  obtain ⟨_, -, h⟩ := bind_ok h
  obtain ⟨_, -, h⟩ := bind_ok h
  obtain ⟨_, -, h⟩ := bind_ok h
  obtain ⟨_, -, h⟩ := bind_ok h
  obtain ⟨_, -, h⟩ := bind_ok h
  obtain ⟨_, -, h⟩ := bind_ok h
  dsimp only at h
  split at h
  · exact absurd h nofun
  · split at h
    · exact absurd h nofun
    · rw [← Except.ok.inj h]
      exact ⟨rfl, rfl⟩

theorem enables_update {policy : PolicyRow} {payload : Payload} :
    ((policyPayload policy).update payload).enables = (payload.enabled.getD (some policy.enabled)).getD false := by
  simp only [Payload.enables, Payload.update, policyPayload]
  cases payload.enabled <;> rfl

theorem updatePolicy_ok {policy new : PolicyRow} {payload : Payload} {version : Nat} {actor : String} {now : Int}
    (h : updatePolicy s policy payload version actor now = .ok new) : new.tenantId = policy.tenantId ∧
      new.enabled = (payload.enabled.getD (some policy.enabled)).getD false := by
  rw [updatePolicy] at h
  split at h
  · exact absurd h nofun
  · split at h
    · exact absurd h nofun
    · obtain ⟨n, hn, hnew⟩ := bind_ok h
      obtain ⟨htenant, henabled⟩ := normalizePolicyPayload_ok hn
      rw [← Except.ok.inj hnew]
      exact ⟨htenant, henabled.trans enables_update⟩

/-- What is inserted, if anything, is a policy of the tenant, enabled as the payload says. -/
theorem inserted_cases (db : List PolicyRow) (tenantId : String) (payload : Payload) (id actor : String) (now : Int) :
    World.inserted s db tenantId payload id actor now = db ∨ ∃ new : PolicyRow,
      World.inserted s db tenantId payload id actor now = db ++ [new] ∧ new.id = id ∧ new.tenantId = tenantId ∧
        new.enabled = payload.enables := by
  rw [World.inserted]
  split
  · exact .inl rfl
  · next n hn =>
    obtain ⟨htenant, henabled⟩ := normalizePolicyPayload_ok hn
    dsimp only
    split
    · exact .inl rfl
    · exact .inr ⟨_, rfl, rfl, htenant, henabled⟩

/-- What is written, if anything, is the row with its tenant; it is enabled
where the payload enables the object, or where it was and the payload does not
disable the object. -/
theorem written_cases (db : List PolicyRow) (policy row : PolicyRow) (payload : Payload) (version : Nat)
    (actor : String) (now : Int) :
    World.written s db policy row payload version actor now = db ∨ ∃ new : PolicyRow,
      World.written s db policy row payload version actor now = Table.store (fun p => p.id) [new] db ∧
        new.id = row.id ∧ new.tenantId = row.tenantId ∧
        new.enabled = column policy.enabled ((payload.enabled.getD (some policy.enabled)).getD false) row.enabled := by
  rw [World.written]
  split
  · exact .inl rfl
  · next new hnew =>
    obtain ⟨htenant, henabled⟩ := updatePolicy_ok hnew
    dsimp only
    split
    · exact .inl rfl
    · refine .inr ⟨_, rfl, rfl, ?_, ?_⟩
      · show column policy.tenantId new.tenantId row.tenantId = row.tenantId
        rw [htenant, column_unchanged]
      · show column policy.enabled new.enabled row.enabled = _
        rw [henabled]

/-- A flush enables a disabled row only where the payload enables the disabled object. -/
theorem enabled_of_column {payload : Payload} {policy row : PolicyRow}
    (h : column policy.enabled ((payload.enabled.getD (some policy.enabled)).getD false) row.enabled = true)
    (hrow : row.enabled = false) : payload.enabled = some (some true) ∧ policy.enabled = false := by
  rw [column] at h
  split at h
  · rw [hrow] at h
    exact absurd h (by decide)
  · next hne =>
    cases hp : payload.enabled with
    | none =>
      rw [hp] at hne
      exact absurd rfl hne
    | some value =>
      rw [hp, Option.getD_some] at h hne
      cases value with
      | none => exact absurd h (by decide)
      | some b =>
        obtain rfl : b = true := h
        exact ⟨rfl, by simpa using fun he : policy.enabled = true => hne (by rw [he]; rfl)⟩

theorem policyCount_append (db : List PolicyRow) (new : PolicyRow) (tenantId : String) :
    policyCount (db ++ [new]) tenantId = policyCount db tenantId + if isEnabled tenantId new then 1 else 0 := by
  rw [policyCount, List.countP_append, List.countP_singleton]
  rfl

theorem policyCount_store {db : List PolicyRow} {row new : PolicyRow}
    (hkeyed : Table.Keyed (fun p : PolicyRow => p.id) db) (hrow : row ∈ db) (hid : new.id = row.id)
    (tenantId : String) : policyCount (Table.store (fun p => p.id) [new] db) tenantId +
      (if isEnabled tenantId row then 1 else 0) = policyCount db tenantId + if isEnabled tenantId new then 1 else 0 :=
  hkeyed.countP_store (isEnabled tenantId) hid hrow

/-! ## The cap -/

/-- The rows have different ids, the tenants are within the cap, and what a
creation has counted was below it. -/
structure Capped (s : Settings) (w : World ω) : Prop where
  keyed : Table.Keyed (fun p : PolicyRow => p.id) w.db
  within : Within s w.db
  counted : ∀ k tenantId payload actor count, w.phase k = .counted tenantId payload actor count → count < s.cap

theorem Capped.goto {w : World ω} (h : Capped s w) {db : List PolicyRow} (k : ω) {phase : Phase}
    (hkeyed : Table.Keyed (fun p : PolicyRow => p.id) db) (hwithin : Within s db)
    (hphase : ∀ tenantId payload actor count, phase = .counted tenantId payload actor count → count < s.cap) :
    Capped s { w.goto k phase with db } := by
  refine ⟨hkeyed, hwithin, fun j tenantId payload actor count hj => ?_⟩
  have hj : Function.update w.phase k phase j = .counted tenantId payload actor count := hj
  by_cases hjk : j = k
  · rw [hjk, Function.update_self] at hj
    exact hphase tenantId payload actor count hj
  · rw [Function.update_of_ne hjk] at hj
    exact h.counted j tenantId payload actor count hj

theorem Capped.insert {w : World ω} (h : Capped s w) {tenantId : String} {payload : Payload} {id : String}
    (actor : String) (now : Int) (hid : id ∉ w.db.map (·.id))
    (hroom : payload.enables = true → policyCount w.db tenantId < s.cap) :
    Table.Keyed (fun p : PolicyRow => p.id) (World.inserted s w.db tenantId payload id actor now) ∧
      Within s (World.inserted s w.db tenantId payload id actor now) := by
  rcases inserted_cases (s := s) w.db tenantId payload id actor now with hsame | ⟨new, hnew, hnewId, htenant, henabled⟩
  · rw [hsame]
    exact ⟨h.keyed, h.within⟩
  · rw [hnew]
    constructor
    · refine h.keyed.append (List.nodup_singleton _) fun row hrow => ?_
      rw [List.mem_singleton.mp hrow, hnewId]
      exact hid
    · intro other
      have hother := h.within other
      rw [policyCount_append]
      split
      · next hp =>
        rw [isEnabled, Bool.and_eq_true, decide_eq_true_eq, htenant, henabled] at hp
        have hlt := hroom hp.2
        rw [hp.1] at hlt
        omega
      · omega

theorem Capped.store {w : World ω} (h : Capped s w) (new : PolicyRow) {row : PolicyRow} (hrow : row ∈ w.db) (hid : new.id = row.id)
    (htenant : new.tenantId = row.tenantId)
    (hroom : new.enabled = true → row.enabled = false → policyCount w.db row.tenantId < s.cap) :
    Table.Keyed (fun p : PolicyRow => p.id) (Table.store (fun p => p.id) [new] w.db) ∧
      Within s (Table.store (fun p => p.id) [new] w.db) := by
  refine ⟨h.keyed.store, fun other => ?_⟩
  have hother := h.within other
  have hcount := policyCount_store h.keyed hrow hid other
  by_cases hold : isEnabled other row = true
  · rw [if_pos hold] at hcount
    split at hcount <;> omega
  · rw [if_neg hold] at hcount
    split at hcount
    · next hp =>
      rw [isEnabled, Bool.and_eq_true, decide_eq_true_eq] at hp hold
      rw [htenant] at hp
      have hlt := hroom hp.2 (Bool.eq_false_iff.mpr fun he => hold ⟨hp.1, he⟩)
      rw [hp.1] at hlt
      omega
    · omega

theorem capped_step {w w' : World ω} {e : Event ω} (h : Capped s w) (hg : Guarded s w e) (hs : w.step s e = some w') :
    Capped s w' := by
  cases e with
  | count k tenantId payload actor =>
    rw [World.step] at hs
    split at hs
    · split at hs
      · obtain rfl := Option.some.inj hs
        exact h
      · next hlt =>
        obtain rfl := Option.some.inj hs
        refine h.goto k h.keyed h.within fun _ _ _ count hc => ?_
        obtain ⟨-, -, -, rfl⟩ := Phase.counted.inj hc
        omega
    · exact absurd hs nofun
  | insert k newId now =>
    rw [World.step] at hs
    split at hs
    · next tenantId payload actor count hphase =>
      split at hs
      · exact absurd hs nofun
      · next hid =>
        obtain rfl := Option.some.inj hs
        simp only [Guarded, hphase, InsertGuarded] at hg
        have hcount := h.counted k tenantId payload actor count hphase
        have hroom : payload.enables = true → policyCount w.db tenantId < s.cap := by
          intro henables
          by_cases hlt : count < policyCount w.db tenantId
          · exact hg henables hlt
          · omega
        obtain ⟨hkeyed, hwithin⟩ := h.insert actor now hid hroom
        exact h.goto k hkeyed hwithin fun _ _ _ _ hc => Phase.noConfusion hc
    · exact absurd hs nofun
  | load k id =>
    rw [World.step] at hs
    split at hs
    · obtain rfl := Option.some.inj hs
      exact h.goto k h.keyed h.within fun _ _ _ _ hc => Phase.noConfusion hc
    · exact absurd hs nofun
  | update k payload expectedVersion actor now =>
    rw [World.step] at hs
    split at hs
    · next id held hphase =>
      split at hs
      · obtain rfl := Option.some.inj hs
        exact h.goto k h.keyed h.within fun _ _ _ _ hc => Phase.noConfusion hc
      · next row hrow =>
        obtain rfl := Option.some.inj hs
        simp only [Guarded, hphase, UpdateGuarded] at hg
        have hmem := (Table.find_some hrow).1
        rcases written_cases (s := s) w.db (held.getD row) row payload expectedVersion actor now with
          hsame | ⟨new, hnew, hid, htenant, henabled⟩
        · rw [hsame]
          exact h.goto k h.keyed h.within fun _ _ _ _ hc => Phase.noConfusion hc
        · obtain ⟨hkeyed, hwithin⟩ := h.store new hmem hid htenant fun hon hoff => by
            obtain ⟨hpayload, hobject⟩ := enabled_of_column (henabled ▸ hon) hoff
            exact hg row hrow hpayload hoff hobject
          rw [hnew]
          exact h.goto k hkeyed hwithin fun _ _ _ _ hc => Phase.noConfusion hc
    · exact absurd hs nofun
  | disable k id actor now =>
    rw [World.step] at hs
    split at hs
    · split at hs
      · obtain rfl := Option.some.inj hs
        exact h
      · next row hrow =>
        obtain rfl := Option.some.inj hs
        obtain ⟨hkeyed, hwithin⟩ := h.store (disablePolicy row actor now) (Table.find_some hrow).1 rfl rfl
          (fun hon => absurd (show false = true from hon) (by decide))
        exact ⟨hkeyed, hwithin, h.counted⟩
    · exact absurd hs nofun

theorem capped (s : Settings) : ((administration s).only (Guarded s)).Inductive (Capped (ω := ω) s) where
  start {w} h := ⟨h.keyed, h.within, fun k _ _ _ _ hk => by rw [h.idle k] at hk; exact absurd hk nofun⟩
  step h hs := capped_step h hs.1 hs.2

/-- A step that does not meet the condition and writes brings a tenant over the cap. -/
theorem cap_exceeded {w w' : World ω} {e : Event ω} (hkeyed : Table.Keyed (fun p : PolicyRow => p.id) w.db)
    (hg : ¬ Guarded s w e) (hs : w.step s e = some w') : w'.db = w.db ∨ ¬ Within s w'.db := by
  cases e with
  | count k tenantId payload actor => exact absurd trivial hg
  | load k id => exact absurd trivial hg
  | disable k id actor now => exact absurd trivial hg
  | insert k newId now =>
    rw [World.step] at hs
    split at hs
    · next tenantId payload actor count hphase =>
      split at hs
      · exact absurd hs nofun
      · obtain rfl := Option.some.inj hs
        simp only [Guarded, hphase, InsertGuarded, not_forall, Nat.not_lt] at hg
        obtain ⟨henables, -, hfull⟩ := hg
        show World.inserted s w.db tenantId payload newId actor now = w.db ∨
          ¬ Within s (World.inserted s w.db tenantId payload newId actor now)
        rcases inserted_cases (s := s) w.db tenantId payload newId actor now with
          hsame | ⟨new, hnew, -, htenant, henabled⟩
        · exact .inl hsame
        · refine .inr fun hwithin => ?_
          have hcount := hwithin tenantId
          have hp : isEnabled tenantId new = true := by simp [isEnabled, htenant, henabled, henables]
          rw [hnew, policyCount_append, if_pos hp] at hcount
          omega
    · exact absurd hs nofun
  | update k payload expectedVersion actor now =>
    rw [World.step] at hs
    split at hs
    · next id held hphase =>
      split at hs
      · obtain rfl := Option.some.inj hs
        exact .inl rfl
      · next row hrow =>
        obtain rfl := Option.some.inj hs
        simp only [Guarded, hphase, UpdateGuarded, not_forall, Nat.not_lt] at hg
        obtain ⟨other, hother, hpayload, hoff, hobject, hfull⟩ := hg
        obtain rfl : row = other := Option.some.inj (hrow.symm.trans hother)
        show World.written s w.db (held.getD row) row payload expectedVersion actor now = w.db ∨
          ¬ Within s (World.written s w.db (held.getD row) row payload expectedVersion actor now)
        rcases written_cases (s := s) w.db (held.getD row) row payload expectedVersion actor now with
          hsame | ⟨new, hnew, hid, htenant, henabled⟩
        · exact .inl hsame
        · refine .inr fun hwithin => ?_
          have hon : new.enabled = true := by
            rw [henabled, hpayload, hobject, hoff]
            rfl
          have hcount := hwithin row.tenantId
          have hstore := policyCount_store hkeyed (Table.find_some hrow).1 hid row.tenantId
          have hp : isEnabled row.tenantId new = true := by simp [isEnabled, htenant, hon]
          have hold : isEnabled row.tenantId row = false := by simp [isEnabled, hoff]
          rw [hnew] at hcount
          rw [if_pos hp, hold, if_neg (by decide)] at hstore
          omega
    · exact absurd hs nofun

/-- No tenant has more enabled policies than the cap in a run whose steps meet
the condition: no insertion of an enabled policy comes after the count has grown
to the cap since it was read, and no change enables a disabled policy of a
tenant at the cap. After such a run a step that does not meet it leaves the
table or brings a tenant over the cap. -/
theorem cap_kept {w : World ω} (hr : ((administration s).only (Guarded s)).Reachable w) : Within s w.db ∧
    ∀ e w', (administration s).step w e w' → ¬ Guarded s w e → w'.db = w.db ∨ ¬ Within s w'.db := by
  have h : Capped s w := (capped s).reachable hr
  exact ⟨h.within, fun e w' hs hg => cap_exceeded h.keyed hg hs⟩

end

namespace Sample

def settings : Settings := ⟨1, 1, fun tenantId _ _ _ _ toolName => tenantId ++ "/" ++ toolName⟩

def forTool (tool : String) : Payload := { toolName := some (some tool) }

def enable : Payload := { enabled := some (some true) }

def empty : World Bool := ⟨[], fun _ => .idle⟩

def create (k : Bool) (tool id : String) : List (Event Bool) :=
  [.count k "acme" (forTool tool) "ada", .insert k id 0]

/-- A policy is disabled and another one is created in its place. -/
def replaced : List (Event Bool) :=
  create false "search" "policy-1" ++ [.disable false "policy-1" "ada" 1] ++ create false "fetch" "policy-2"

/-- The first policy is enabled again. -/
def enabledAgain : List (Event Bool) := replaced ++ [.load false "policy-1", .update false enable 2 "ada" 3]

/-- Two administrators create at the same time. -/
def race : List (Event Bool) :=
  [.count false "acme" (forTool "search") "ada", .count true "acme" (forTool "fetch") "bob",
    .insert false "policy-1" 0, .insert true "policy-2" 0]

theorem start : Start settings empty := ⟨List.nodup_nil, fun _ => Nat.zero_le _, fun _ => rfl⟩

/-- The count of a tenant after a run. -/
theorem reached (es : List (Event Bool)) {n : Nat}
    (h : (es.foldlM (World.step settings) empty).map (fun w => policyCount w.db "acme") = some n) :
    ∃ w : World Bool, (administration settings).Reachable w ∧ policyCount w.db "acme" = n := by
  obtain ⟨w, hw, hcount⟩ := Option.map_eq_some_iff.mp h
  exact ⟨w, ⟨empty, es, start, .of_foldlM hw⟩, hcount⟩

/-- One administrator alone passes the cap with an update, two do with creations. -/
theorem cap_passed :
    (∃ w : World Bool, (administration settings).Reachable w ∧ ¬ Within settings w.db) ∧
    ∃ es : List (Event Bool), (∀ e ∈ es, (∃ k tenantId payload actor, e = .count k tenantId payload actor) ∨
      ∃ k id now, e = .insert k id now) ∧
      ∃ w : World Bool, (administration settings).Run empty es w ∧ ¬ Within settings w.db := by
  constructor
  · obtain ⟨w, hw, hcount⟩ := reached enabledAgain (n := 2) (by decide +kernel)
    exact ⟨w, hw, fun h => absurd (hcount ▸ h "acme") (by decide)⟩
  · have hrun : (race.foldlM (World.step settings) empty).map (fun w => policyCount w.db "acme") = some 2 := by
      decide +kernel
    obtain ⟨w, hw, hcount⟩ := Option.map_eq_some_iff.mp hrun
    refine ⟨race, fun e he => ?_, w, .of_foldlM hw, fun h => absurd (hcount ▸ h "acme") (by decide)⟩
    simp only [race, List.mem_cons, List.not_mem_nil, or_false] at he
    rcases he with rfl | rfl | rfl | rfl
    · exact .inl ⟨_, _, _, _, rfl⟩
    · exact .inl ⟨_, _, _, _, rfl⟩
    · exact .inr ⟨_, _, _, rfl⟩
    · exact .inr ⟨_, _, _, rfl⟩

theorem cap_kept_sample : ∃ w : World Bool, policyCount w.db "acme" = 1 ∧ Within settings w.db := by
  have hrun : (replaced.foldlM (fun w e => if Guarded settings w e then World.step settings w e else none) empty).map
      (fun w => policyCount w.db "acme") = some 1 := by decide +kernel
  obtain ⟨w, hw, hcount⟩ := Option.map_eq_some_iff.mp hrun
  exact ⟨w, hcount, (cap_kept ⟨empty, replaced, start, .only_of_foldlM hw⟩).1⟩

end Sample

end CodeMate.Quota.Administration
