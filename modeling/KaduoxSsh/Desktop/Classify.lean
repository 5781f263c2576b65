import KaduoxSsh.Desktop.Lexer
import Mathlib.Order.Basic

/-!
# The risk of a command line

`command_classify.rs`: a command line is cut into segments, each segment is
classified by its command word and its arguments, and the command has the highest
risk of its segments. The classification decides whether a command of the
assistant runs by itself or waits for the user's approval.

The letters that may start the name of a variable are those of Unicode, which the
model takes as the parameter `Alphabetic`.
-/

namespace KaduoxSsh.Desktop

open Text

/-- The letters of Unicode. -/
class Alphabetic where
  isAlphabetic : Char → Bool

/-- The letters of ASCII, which are those of Unicode on a text in ASCII. -/
@[reducible] def asciiAlphabetic : Alphabetic where
  isAlphabetic := Char.isAlpha

/-! ## Levels -/

inductive RiskLevel where
  | readOnly
  | modify
  | delete
  | dangerous
deriving DecidableEq, Repr

namespace RiskLevel

def asStr : RiskLevel → String
  | .readOnly => "readOnly"
  | .modify => "modify"
  | .delete => "delete"
  | .dangerous => "dangerous"

/-- The place of a level in the order of its declaration. -/
def rank : RiskLevel → Nat
  | .readOnly => 0
  | .modify => 1
  | .delete => 2
  | .dangerous => 3

theorem rank_injective : Function.Injective rank := by
  intro a b h
  cases a <;> cases b <;> first | rfl | cases h

instance : LinearOrder RiskLevel := LinearOrder.lift' rank rank_injective

theorem readOnly_le (r : RiskLevel) : readOnly ≤ r := Nat.zero_le r.rank

theorem le_dangerous (r : RiskLevel) : r ≤ dangerous := by
  show r.rank ≤ 3
  cases r <;> decide

/-- The highest of some levels, and `readOnly` when there is none. -/
def highest (levels : List RiskLevel) : RiskLevel := levels.max?.getD .readOnly

variable {levels : List RiskLevel}

theorem le_highest {r : RiskLevel} (hmem : r ∈ levels) : r ≤ highest levels := by
  cases hmax : levels.max? with
  | none =>
      rw [List.max?_eq_none_iff] at hmax
      rw [hmax] at hmem
      cases hmem
  | some m =>
      rw [highest, hmax]
      exact (List.max?_eq_some_iff.mp hmax).2 r hmem

theorem highest_le {bound : RiskLevel} (h : ∀ r ∈ levels, r ≤ bound) : highest levels ≤ bound := by
  cases hmax : levels.max? with
  | none =>
      rw [highest, hmax]
      exact bound.readOnly_le
  | some m =>
      rw [highest, hmax]
      exact h m (List.max?_eq_some_iff.mp hmax).1

theorem highest_eq_readOnly_iff : highest levels = .readOnly ↔ ∀ r ∈ levels, r = .readOnly := by
  constructor
  · intro h r hmem
    exact le_antisymm (h ▸ le_highest hmem) r.readOnly_le
  · intro h
    cases hmax : levels.max? with
    | none => rw [highest, hmax, Option.getD_none]
    | some m =>
        rw [highest, hmax, Option.getD_some]
        exact h m (List.max?_eq_some_iff.mp hmax).1

end RiskLevel

/-! ## Tables -/

/-- Command words that only read. -/
def READONLY_CMDS : List String :=
  ["ls", "ll", "pwd", "cat", "less", "more", "head", "tail", "df", "du", "free", "ps", "top",
   "htop", "uptime", "uname", "whoami", "id", "w", "who", "last", "ip", "ifconfig", "ss",
   "netstat", "ping", "traceroute", "tracepath", "dig", "nslookup", "host", "curl", "wget",
   "grep", "egrep", "fgrep", "find", "locate", "which", "whereis", "type", "env", "printenv",
   "echo", "printf", "date", "cal", "history", "lscpu", "lsblk", "lsusb", "lspci", "lsmod",
   "vmstat", "iostat", "mpstat", "sar", "dmesg", "journalctl", "stat", "file", "wc", "sort",
   "uniq", "diff", "comm", "awk", "cut", "tr", "man", "info", "help", "alias", "jobs", "mount",
   "lsmount", "blkid", "fdisk", "smartctl", "ethtool", "hostname", "hostnamectl", "timedatectl",
   "localectl", "getent", "groups", "crontab", "atq", "lpq", "sensors", "nvidia-smi", "systemctl",
   "service", "chkconfig", "arp", "route", "mtr", "tcpdump", "iftop", "nload", "lsof", "fuser",
   "pgrep", "pidof", "pstree", "tree", "sha256sum", "md5sum", "sha1sum", "cksum", "base64", "od",
   "hexdump", "strings", "zcat", "zgrep", "bzcat", "xzcat", "tar", "zipinfo", "unzip", "rpm",
   "dpkg", "apt-cache", "yum", "dnf", "snap", "flatpak", "pip", "pip3", "npm", "screen", "tmux",
   "exit", "logout", "true", "test", "[", "cd", "clear"]

/-- Command words that delete or destroy. -/
def DELETE_CMDS : List String :=
  ["rm", "rmdir", "shred", "wipe", "unlink", "userdel", "groupdel", "deluser", "delgroup",
   "shutdown", "poweroff", "halt", "reboot", "init", "telinit", "kill", "killall", "pkill",
   "skill", "swapoff"]

/-- Texts that are dangerous wherever they stand. -/
def DANGEROUS_PATTERNS : List String :=
  [":()\x7b :|:& \x7d;:", ":()\x7b:|:&\x7d;:", "mkfs", "mkswap", "> /dev/sd", "> /dev/nvme",
   "> /dev/hd", "of=/dev/sd", "of=/dev/nvme", "of=/dev/hd", "dd of=/dev/"]

/-- Command words that modify. -/
def MODIFY_CMDS : List String :=
  ["mkdir", "touch", "cp", "mv", "ln", "install", "chmod", "chown", "chgrp", "chattr", "setfacl",
   "apt", "apt-get", "apt-mark", "dpkg-reconfigure", "yum", "dnf", "zypper", "pacman", "snap",
   "flatpak", "pip", "pip3", "npm", "yarn", "pnpm", "gem", "cargo", "systemctl", "service",
   "chkconfig", "update-rc.d", "useradd", "adduser", "usermod", "groupadd", "addgroup",
   "groupmod", "passwd", "chpasswd", "visudo", "crontab", "at", "mount", "umount", "swapon",
   "mkfs", "fdisk", "parted", "sgdisk", "lvcreate", "lvremove", "vgcreate", "pvcreate", "sed",
   "patch", "git", "helm", "compose", "ssh", "scp", "sftp", "rsync", "vim", "vi", "nano", "emacs",
   "ed", "ex", "tee", "rename", "update-alternatives", "alternatives", "locale-gen",
   "timedatectl", "hostnamectl", "localectl", "firewall-cmd", "ufw", "iptables", "ip6tables",
   "nft", "tc", "ip", "route", "ifconfig", "ifup", "ifdown", "netplan", "nmcli", "ethtool",
   "sysctl", "modprobe", "insmod", "rmmod", "depmod", "grub-install", "update-grub", "dpkg",
   "rpm", "make", "cmake", "ninja", "meson", "gcc", "g++", "cc", "ld", "strip", "objcopy", "tar",
   "zip", "unzip", "gzip", "gunzip", "bzip2", "bunzip2", "xz", "unxz", "7z", "rar", "unrar",
   "truncate", "fallocate", "split", "csplit", "dd", "badblocks", "fsck", "e2fsck", "xfs_repair",
   "tune2fs", "resize2fs", "mountpoint", "losetup", "kpartx", "dmsetup", "cryptsetup", "lvm",
   "mdadm", "zfs", "zpool", "btrfs", "xfs_admin"]

/-- The wrappers in front of a command word. -/
def COMMAND_PREFIXES : List String :=
  ["sudo", "doas", "nice", "ionice", "nohup", "timeout", "env", "command", "builtin", "exec",
   "time", "stdbuf", "chrt", "taskset", "runuser"]

/-! ## The command word -/

section Words

variable [Alphabetic]

/-- Whether a word assigns a variable. -/
def isAssignment (word : String) : Bool :=
  word.toList.contains '=' && !startsWith word "=" &&
    word.toList.head?.any fun c ↦ Alphabetic.isAlphabetic c || c == '_'

/-- Whether a word stands in front of the command word. -/
def isSkipped (word : String) : Bool :=
  isAssignment word || COMMAND_PREFIXES.contains (toAsciiLowercase word)

/-- The words of a segment from its command word on. -/
def commandWords (segment : String) : List String :=
  (splitWhitespace segment).dropWhile isSkipped

/-- The command word of a segment, or no text when every word is skipped. -/
def firstToken (segment : String) : String := (commandWords segment).headD ""

end Words

/-! ## Checks of the arguments -/

/-- What the arguments of `rm` say so far. -/
structure RmArgs where
  recursive : Bool
  force : Bool
  targets : List String
deriving DecidableEq, Repr

def RmArgs.push (args : RmArgs) (arg : String) : RmArgs :=
  if arg = "--recursive" then { args with recursive := true }
  else if arg = "--force" then { args with force := true }
  else if arg ∈ ["--no-preserve-root", "--preserve-root", "-d", "--dir", "-v", "--verbose", "-i",
      "-I", "--interactive"] then args
  else
    match (stripPrefix arg "-").map String.toList with
    | none => { args with targets := args.targets ++ [arg] }
    | some flags =>
        if flags ≠ [] ∧ flags.all Char.isAlpha then
          { args with
            recursive := args.recursive || flags.contains 'r' || flags.contains 'R'
            force := args.force || flags.contains 'f' }
        else { args with targets := args.targets ++ [arg] }

/-- Whether a segment deletes a critical path with `rm`, recursively and by force. -/
def isDangerousRm [Alphabetic] (segment : String) : Bool :=
  match commandWords segment with
  | [] => false
  | cmd :: words =>
      if lastPiece cmd (· == '/') ≠ "rm" then false
      else
        let args := words.foldl RmArgs.push ⟨false, false, []⟩
        args.recursive && args.force &&
          args.targets.any fun arg ↦
            ["/", "/*", "//", "~", "~/", "~/*", "/.", "/..", "/home", "/home/*", "/etc", "/usr",
             "/usr/*", "/var", "/boot", "/root", "/root/*", "/bin", "/sbin", "/lib",
             "/lib64"].contains arg

def findHasExecSideEffect (words : List String) : Bool :=
  words.any fun w ↦ ["-exec", "-execdir", "-ok", "-okdir", "-delete"].contains w

def awkHasSideEffect (segment : String) : Bool :=
  contains segment "system(" || contains segment "| getline" || contains segment "getline <"

def UPLOAD_FLAGS : List String :=
  ["-F", "--form", "-d", "--data", "--data-binary", "--data-raw", "--data-urlencode", "-T",
   "--upload-file", "--post301", "--post302", "--post303", "--body-file", "--post-data",
   "--post-file"]

def isUploadMethod (method : String) : Bool :=
  ["POST", "PUT", "DELETE", "PATCH"].contains (toAsciiUppercase method)

def downloadToolUploads : List String → Bool
  | [] => false
  | word :: words =>
      (UPLOAD_FLAGS.any fun f ↦ word == f || startsWith word (f ++ "=")) ||
      ((word == "-X" || word == "--request") && words.head?.any isUploadMethod) ||
      (startsWith word "--request=" && isUploadMethod (trimStartMatches word "--request=")) ||
      downloadToolUploads words

/-! ## Tools that are classified by their subcommand -/

/-- The word at an index, or no text. -/
def wordAt (words : List String) (index : Nat) : String := words[index]?.getD ""

def serviceQuery (words : List String) : Bool :=
  ["status", "show", "list-units", "list-unit-files", "list-timers", "is-active", "is-enabled",
   "is-failed", "cat", "help", "--version", "list-dependencies", "list-sockets",
   "list-jobs"].any fun sub ↦ words.any fun word ↦ word == sub

def containerQuery (words : List String) : Bool :=
  ["ps", "images", "inspect", "logs", "stats", "version", "info", "top", "diff", "history", "port",
   "search", "df"].contains (wordAt words 1) ||
  (["container", "image"].contains (wordAt words 1) &&
    ["ls", "inspect", "logs", "stats", "top", "history"].contains (wordAt words 2))

def containerDelete (words : List String) : Bool :=
  ["rm", "rmi", "kill"].contains (wordAt words 1) ||
  (["container", "image", "volume", "network", "system"].contains (wordAt words 1) &&
    ["rm", "prune"].contains (wordAt words 2)) ||
  wordAt words 1 == "stop"

def kubectlQuery (words : List String) : Bool :=
  ["get", "describe", "logs", "top", "version", "api-resources", "api-versions", "cluster-info",
   "config", "explain"].contains (wordAt words 1)

/-- A query of a tool only reads, and everything else that it does modifies. -/
def queryOrModify (query : Bool) : RiskLevel := if query then .readOnly else .modify

def containerRisk (words : List String) : RiskLevel :=
  if containerQuery words then .readOnly else if containerDelete words then .delete else .modify

def kubectlRisk (words : List String) : RiskLevel :=
  if kubectlQuery words then .readOnly else if wordAt words 1 = "delete" then .delete else .modify

theorem queryOrModify_eq_readOnly {query : Bool} :
    queryOrModify query = .readOnly ↔ query = true := by
  cases query <;> simp [queryOrModify]

theorem containerRisk_eq_readOnly {words : List String} :
    containerRisk words = .readOnly ↔ containerQuery words = true := by
  unfold containerRisk
  split_ifs with hquery <;> simp [hquery]

theorem kubectlRisk_eq_readOnly {words : List String} :
    kubectlRisk words = .readOnly ↔ kubectlQuery words = true := by
  unfold kubectlRisk
  split_ifs with hquery <;> simp [hquery]

/-! ## A segment -/

/-- Whether a text, in lower case, has one of some patterns in it. -/
def matchesPattern (patterns : List String) (text : String) : Bool :=
  patterns.any fun pattern ↦ contains (toAsciiLowercase text) pattern

theorem matchesPattern_of_isInfix {patterns : List String} {part whole : String}
    (hpart : part.toList <:+: whole.toList) (h : matchesPattern patterns part = true) :
    matchesPattern patterns whole = true := by
  obtain ⟨pattern, hmem, hcontains⟩ := List.any_eq_true.mp h
  exact List.any_eq_true.mpr
    ⟨pattern, hmem, contains_of_isInfix (toAsciiLowercase_isInfix hpart) hcontains⟩

section Segment

variable [Alphabetic]

/-- The command word of a segment in lower case. -/
def commandToken (segment : String) : String := toAsciiLowercase (firstToken segment)

/-- The command word without the directories in front. -/
def commandBase (segment : String) : String := lastPiece (commandToken segment) (· == '/')

/-- The risk of a segment; `hasWriteRedirect` comes from the lexer. -/
def classifySegment (segment : String) (hasWriteRedirect : Bool) : RiskLevel :=
  let token := commandToken segment
  let base := commandBase segment
  let words := splitWhitespace segment
  if matchesPattern DANGEROUS_PATTERNS segment then .dangerous
  else if isDangerousRm segment then .dangerous
  else if base ∈ ["systemctl", "service"] then queryOrModify (serviceQuery words)
  else if base ∈ ["docker", "podman", "nerdctl"] then containerRisk words
  else if base = "kubectl" then kubectlRisk words
  else if hasWriteRedirect ∧ token ≠ "" ∧ base ≠ "" then .modify
  else if base = "find" ∧ findHasExecSideEffect words then .modify
  else if base = "awk" ∧ awkHasSideEffect segment then .modify
  else if base ∈ ["curl", "wget"] ∧ downloadToolUploads words then .modify
  else if base ∈ DELETE_CMDS then .delete
  else if base ∈ MODIFY_CMDS then .modify
  else if base ∈ READONLY_CMDS then .readOnly
  else .modify

end Segment

/-! ## A command line -/

/-- Whether a command line has the syntax of a subshell or of a substitution. -/
def hasSubshellSyntax (command : String) : Bool :=
  contains command "$(" || contains command "`" || contains command "<(" || contains command ">("

/-- The classification around that of the segments, which the platforms share. -/
def classifyWith (classify : String → Bool → RiskLevel) (command : String) : RiskLevel :=
  if hasSubshellSyntax command then .dangerous
  else if matchesPattern DANGEROUS_PATTERNS command then .dangerous
  else
    RiskLevel.highest ((lexSegments command).map fun segment ↦
      classify (segment.text command) segment.hasWriteRedirect)

/-- The risk of a command line: the highest of its segments. -/
def classifyCommand [Alphabetic] (command : String) : RiskLevel :=
  classifyWith classifySegment command

/-! ## Windows -/

inductive TargetPlatform where
  | unix
  | windows
deriving DecidableEq, Repr

def TargetPlatform.parse (value : String) : TargetPlatform :=
  if eqIgnoreAsciiCase value "windows" then .windows else .unix

def WINDOWS_READONLY_CMDS : List String :=
  ["ver", "systeminfo", "tasklist", "netstat", "findstr", "find", "ipconfig", "whoami",
   "hostname", "dir", "type", "echo", "chcp", "date", "time", "set", "ping", "tracert",
   "pathping", "nslookup", "arp", "getmac", "driverquery", "qprocess", "tree", "where", "more",
   "sort", "cls", "help"]

def WINDOWS_DELETE_CMDS : List String :=
  ["del", "erase", "rd", "rmdir", "taskkill", "shutdown"]

def WINDOWS_DANGEROUS_PATTERNS : List String :=
  ["format c:", "format d:"]

/-- The verbs of PowerShell that write. -/
def POWERSHELL_WRITE_VERBS : List String :=
  ["set-", "new-", "remove-", "stop-", "start-", "restart-", "clear-", "rename-", "copy-",
   "move-", "out-file", "add-content", "set-content", "invoke-", "iex", "del", "rm", "rmdir",
   "format-"]

/-- Whether a segment deletes a path of the system recursively. -/
def isDangerousWindowsDelete (segment base : String) : Bool :=
  if base ∉ ["del", "erase", "rd", "rmdir"] then false
  else
    let words := splitWhitespace (toAsciiLowercase segment)
    (words.any fun word ↦ startsWith word "/s" || startsWith word "-s") &&
      words.any fun word ↦
        ["c:\\", "c:\\*", "c:\\windows", "c:\\windows\\*", "%systemroot%"].contains word

/-- Whether the word at an index is one of some, in any case. -/
def wordIsOneOf (words : List String) (index : Nat) (options : List String) : Bool :=
  words[index]?.any fun w ↦ options.any fun option ↦ eqIgnoreAsciiCase w option

def scQuery (words : List String) : Bool :=
  wordIsOneOf words 1 ["query", "queryex", "qc", "enumdepend"]

def regQuery (words : List String) : Bool := wordIsOneOf words 1 ["query"]

def routeQuery (words : List String) : Bool := words.any fun w ↦ eqIgnoreAsciiCase w "print"

def netQuery (words : List String) : Bool := wordIsOneOf words 1 ["view"]

def wmicQuery (words : List String) : Bool := wordIsOneOf words 2 ["get", "list"]

/-- Whether the words of a PowerShell command have a `Get-` and no verb that writes. -/
def powershellReads (words : List String) : Bool :=
  (words.any fun w ↦ startsWith (toAsciiLowercase w) "get-") &&
    !words.any fun w ↦ POWERSHELL_WRITE_VERBS.any fun verb ↦ startsWith (toAsciiLowercase w) verb

section Windows

variable [Alphabetic]

/-- The command word of a segment without directories and without `.exe` and `.com`. -/
def windowsBase (segment : String) : String :=
  trimEndMatches
    (trimEndMatches (lastPiece (commandToken segment) fun c ↦ c == '/' || c == '\\') ".exe") ".com"

def classifyWindowsSegment (segment : String) (hasWriteRedirect : Bool) : RiskLevel :=
  let token := commandToken segment
  let base := windowsBase segment
  let words := splitWhitespace segment
  if matchesPattern WINDOWS_DANGEROUS_PATTERNS segment then .dangerous
  else if isDangerousWindowsDelete segment base then .dangerous
  else if base = "sc" then queryOrModify (scQuery words)
  else if base = "reg" then queryOrModify (regQuery words)
  else if base = "route" then queryOrModify (routeQuery words)
  else if base = "net" then queryOrModify (netQuery words)
  else if base = "wmic" then queryOrModify (wmicQuery words)
  else if base ∈ ["powershell", "pwsh"] then
    queryOrModify (powershellReads words && !hasWriteRedirect)
  else if base ∈ ["rm", "shred", "dd", "mkfs"] then .dangerous
  else if hasWriteRedirect ∧ token ≠ "" then .modify
  else if base ∈ WINDOWS_DELETE_CMDS then .delete
  else if base ∈ WINDOWS_READONLY_CMDS then .readOnly
  else .modify

/-- The risk of a command line on the platform it runs on. -/
def classifyCommandFor (command : String) : TargetPlatform → RiskLevel
  | .unix => classifyCommand command
  | .windows => classifyWith classifyWindowsSegment command

end Windows

/-! ## Approval -/

inductive PermissionMode where
  | strict
  | approval
  | full
deriving DecidableEq, Repr

namespace PermissionMode

def fromStr (value : String) : PermissionMode :=
  if value = "strict" then .strict else if value = "full" then .full else .approval

def asStr : PermissionMode → String
  | .strict => "strict"
  | .approval => "approval"
  | .full => "full"

end PermissionMode

/-- Whether a command of some risk waits for the user's approval. -/
def needsApproval (mode : PermissionMode) : RiskLevel → Bool
  | .dangerous => true
  | .delete => true
  | .modify => mode ≠ .full
  | .readOnly => mode = .strict

end KaduoxSsh.Desktop
