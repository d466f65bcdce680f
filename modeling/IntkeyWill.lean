import IntkeyWill.Json
import IntkeyWill.Py
import IntkeyWill.Store
import IntkeyWill.Registry
import IntkeyWill.Will
import IntkeyWill.Frame
import IntkeyWill.Run
import IntkeyWill.Review
import IntkeyWill.Signing
import IntkeyWill.Validity
import IntkeyWill.WitnessIndex
import IntkeyWill.Retry
import IntkeyWill.Delayed
import IntkeyWill.Reads
import IntkeyWill.Paced
import IntkeyWill.Order
import IntkeyWill.Separation
import IntkeyWill.RegistryOrder
import IntkeyWill.WillOrder
import IntkeyWill.BatchOrder
import IntkeyWill.Kept
import IntkeyWill.Interleaving
import IntkeyWill.Completion
