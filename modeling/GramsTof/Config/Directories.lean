import Mathlib.Data.List.Basic

/-! `GRAMS_TOF_Config` and the directories it gives out. -/

namespace GramsTof

/-- The members of `GRAMS_TOF_Config`. -/
structure Config where
  data : String → String → Option String
  configDir : String
  configFilePath : String
  tofdataDir : String
  vaultPath : String
  loaded : Bool

namespace Config

def setVaultPath (c : Config) (path : String) : Config := { c with vaultPath := path }

def clearVaultPath (c : Config) : Config := { c with vaultPath := "" }

def getTOFDataDir (c : Config) : String := c.tofdataDir

/-- The body of the getters of the directories below the data directory. -/
def directory (name : String) (c : Config) (useVault : Bool) : String :=
  if useVault ∧ c.vaultPath ≠ "" then c.vaultPath else c.tofdataDir ++ name

def getSTG0Dir : Config → Bool → String := directory "/stg0"
def getSTG1Dir : Config → Bool → String := directory "/stg1"
def getSTG2Dir : Config → Bool → String := directory "/stg2"
def getLogDir : Config → Bool → String := directory "/log"
def getHistDir : Config → Bool → String := directory "/hist"
def getDiscDir : Config → Bool → String := directory "/disc"
def getQDCDir : Config → Bool → String := directory "/qdc"
def getTDCDir : Config → Bool → String := directory "/tdc"
def getCalibrationDir : Config → Bool → String := directory "/calibration"
def getAsicTempDir : Config → Bool → String := directory "/asic_temp"

/-- The getters, each with the name of its directory. -/
def directories : List (String × (Config → Bool → String)) :=
  [("/stg0", getSTG0Dir), ("/stg1", getSTG1Dir), ("/stg2", getSTG2Dir), ("/log", getLogDir),
    ("/hist", getHistDir), ("/disc", getDiscDir), ("/qdc", getQDCDir), ("/tdc", getTDCDir),
    ("/calibration", getCalibrationDir), ("/asic_temp", getAsicTempDir)]

variable {c : Config} {name path : String} {get : Config → Bool → String} {useVault : Bool}

theorem eq_directory (h : (name, get) ∈ directories) : get = directory name := by
  simp only [directories, List.mem_cons, Prod.mk.injEq, List.not_mem_nil, or_false] at h
  rcases h with ⟨rfl, rfl⟩ | ⟨rfl, rfl⟩ | ⟨rfl, rfl⟩ | ⟨rfl, rfl⟩ | ⟨rfl, rfl⟩ | ⟨rfl, rfl⟩ |
    ⟨rfl, rfl⟩ | ⟨rfl, rfl⟩ | ⟨rfl, rfl⟩ | ⟨rfl, rfl⟩ <;> rfl

/-- Without a vault every getter gives its own directory, whatever it is asked for. -/
theorem get_clearVaultPath (h : (name, get) ∈ directories) :
    get c.clearVaultPath useVault = c.getTOFDataDir ++ name := by
  rw [eq_directory h, directory, if_neg fun hv => hv.2 rfl]
  rfl

/-- With a vault all getters give its path, or each its own directory. -/
theorem get_setVaultPath (h : (name, get) ∈ directories) (hpath : path ≠ "") :
    get (c.setVaultPath path) useVault = if useVault then path else c.getTOFDataDir ++ name := by
  rw [eq_directory h, directory]
  cases useVault with
  | true => exact if_pos ⟨rfl, hpath⟩
  | false => exact if_neg fun hv => absurd hv.1 nofun

end Config

end GramsTof
