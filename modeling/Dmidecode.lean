import Dmidecode.Bytes
import Dmidecode.ByteSwap
import Dmidecode.Types
import Dmidecode.Readers
